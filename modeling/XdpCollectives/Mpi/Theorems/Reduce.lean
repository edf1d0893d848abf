import XdpCollectives.Mpi.Reduce
import XdpCollectives.Mpi.Theorems.Reassembly
import XdpCollectives.Fold.Differ
import Mathlib.Data.BitVec

open Memory Wire Process

namespace Mpi

section Operations

variable {size : Nat} {float : Floating} {a : Arith} {opcode : MPIOpcode} {x y z : BitVec (8 * size)}
variable {xs : List (BitVec (8 * size))} {f : BitVec (8 * size) → BitVec (8 * size) → BitVec (8 * size)}

theorem one_ne_zero_of_pos (hs : 0 < size) : (1 : BitVec (8 * size)) ≠ 0 := by
  intro h
  have ht := congrArg BitVec.toNat h
  have hw : 1 < 2 ^ (8 * size) := Nat.one_lt_two_pow (by omega)
  simp [Nat.mod_eq_of_lt hw] at ht

theorem ofCondition_ne_zero {c : Prop} [Decidable c] (hs : 0 < size) :
    (ofCondition c : BitVec (8 * size)) ≠ 0 ↔ c := by
  rw [ofCondition]
  split
  case isTrue h  => simp only [h, iff_true]; exact one_ne_zero_of_pos hs
  case isFalse h => simp [h]

-- The integer that an element is.
def valueOf (a : Arith) (x : BitVec (8 * size)) : Int :=
  match a with
  | .signed => x.toInt
  | _       => x.toNat

theorem less_iff : less a x y ↔ valueOf a x < valueOf a y := by
  cases a <;> simp [less, valueOf, BitVec.slt, BitVec.ult]

theorem valueOf_injective (h : valueOf a x = valueOf a y) : x = y := by
  cases a
  case signed => exact BitVec.eq_of_toInt_eq h
  all_goals exact BitVec.eq_of_toNat_eq (Int.ofNat.inj h)

-- The truth value that a logical opcode asks of the result.
def Truth (opcode : MPIOpcode) (xs : List (BitVec (8 * size))) (r : BitVec (8 * size)) : Prop :=
  match opcode with
  | .land => r ≠ 0 ↔ ∀ x ∈ xs, x ≠ 0
  | .lor  => r ≠ 0 ↔ ∃ x ∈ xs, x ≠ 0
  | .lxor => r ≠ 0 ↔ Odd (Fold.truths xs)
  | _     => True

theorem larger_comm (a : Arith) : Std.Commutative fun x y : BitVec (8 * size) => if less a x y then y else x :=
  Fold.choose_comm (fun _ _ => valueOf_injective) fun _ _ => less_iff

theorem larger_assoc (a : Arith) : Std.Associative fun x y : BitVec (8 * size) => if less a x y then y else x :=
  Fold.choose_assoc fun _ _ => less_iff

theorem smaller_iff : less a y x ↔ -valueOf a x < -valueOf a y := by
  rw [less_iff, neg_lt_neg_iff]

theorem smaller_comm (a : Arith) : Std.Commutative fun x y : BitVec (8 * size) => if less a y x then y else x :=
  Fold.choose_comm (fun _ _ h => valueOf_injective (neg_inj.mp h)) fun _ _ => smaller_iff

theorem smaller_assoc (a : Arith) : Std.Associative fun x y : BitVec (8 * size) => if less a y x then y else x :=
  Fold.choose_assoc fun _ _ => smaller_iff

theorem both_comm : Std.Commutative fun x y : BitVec (8 * size) => ofCondition (x ≠ 0 ∧ y ≠ 0) :=
  ⟨fun x y => by simp only [and_comm]⟩

theorem both_assoc (hs : 0 < size) : Std.Associative fun x y : BitVec (8 * size) => ofCondition (x ≠ 0 ∧ y ≠ 0) :=
  ⟨fun x y z => by simp only [ofCondition_ne_zero hs, and_assoc]⟩

theorem either_comm : Std.Commutative fun x y : BitVec (8 * size) => ofCondition (x ≠ 0 ∨ y ≠ 0) :=
  ⟨fun x y => by simp only [or_comm]⟩

theorem either_assoc (hs : 0 < size) : Std.Associative fun x y : BitVec (8 * size) => ofCondition (x ≠ 0 ∨ y ≠ 0) :=
  ⟨fun x y z => by simp only [ofCondition_ne_zero hs, or_assoc]⟩

-- Whether the values are equal says nothing about which of them are true, so `lxor` is no such operation.
theorem operation_laws (h : operation? float a opcode = some f) (hf : a ≠ .floating) (hx : opcode ≠ .lxor)
    (hs : 0 < size) : Std.Commutative f ∧ Std.Associative f := by
  unfold operation? at h
  split at h
  all_goals first | contradiction | obtain rfl := Option.some.inj h
  case h_6  => exact ⟨both_comm, both_assoc hs⟩
  case h_7  => exact ⟨either_comm, either_assoc hs⟩
  case h_10 => exact ⟨inferInstance, inferInstance⟩
  case h_11 => exact ⟨inferInstance, inferInstance⟩
  case h_12 => exact ⟨larger_comm a, larger_assoc a⟩
  case h_13 => exact ⟨smaller_comm a, smaller_assoc a⟩
  case h_14 => exact ⟨inferInstance, inferInstance⟩
  case h_15 => exact ⟨inferInstance, inferInstance⟩
  case h_16 => exact ⟨inferInstance, inferInstance⟩

theorem operation_land (float : Floating) (hf : a ≠ .floating) :
    operation? float a .land = some fun x y : BitVec (8 * size) => ofCondition (x ≠ 0 ∧ y ≠ 0) := by
  cases a <;> first | contradiction | rfl

theorem operation_lor (float : Floating) (hf : a ≠ .floating) :
    operation? float a .lor = some fun x y : BitVec (8 * size) => ofCondition (x ≠ 0 ∨ y ≠ 0) := by
  cases a <;> first | contradiction | rfl

theorem operation_lxor (float : Floating) (hf : a ≠ .floating) :
    operation? float a .lxor = some (Fold.differ : BitVec (8 * size) → BitVec (8 * size) → BitVec (8 * size)) := by
  have hd : (Fold.differ : BitVec (8 * size) → _ → _) = fun x y => ofCondition (x ≠ y) := by
    funext x y
    simp only [Fold.differ, ofCondition, ne_eq, ite_not]
  rw [hd]
  cases a <;> first | contradiction | rfl

-- The truth value of the result, from those of the elements.
theorem truth_of_fold1 (h : operation? float a opcode = some f) (hf : a ≠ .floating) (hx : opcode ≠ .lxor)
    (hs : 0 < size) (hr : Fold.fold1 f xs = some r) : Truth opcode xs r := by
  let isTrue (x : BitVec (8 * size)) : Bool := decide (x ≠ 0)
  cases opcode
  case lxor => contradiction
  case land =>
    obtain rfl := Option.some.inj (h.symm.trans (operation_land float hf))
    have ht : isTrue r = xs.all isTrue := by
      refine Fold.fold1_all (fun x y => ?_) hr
      simp only [isTrue, ofCondition_ne_zero hs, Bool.decide_and]
    calc r ≠ 0 ↔ isTrue r = true            := decide_eq_true_iff.symm
      _        ↔ ∀ x ∈ xs, isTrue x = true  := by rw [ht, List.all_eq_true]
      _        ↔ ∀ x ∈ xs, x ≠ 0            := forall₂_congr fun _ _ => decide_eq_true_iff
  case lor =>
    obtain rfl := Option.some.inj (h.symm.trans (operation_lor float hf))
    have ht : isTrue r = xs.any isTrue := by
      refine Fold.fold1_any (fun x y => ?_) hr
      simp only [isTrue, ofCondition_ne_zero hs, Bool.decide_or]
    calc r ≠ 0 ↔ isTrue r = true            := decide_eq_true_iff.symm
      _        ↔ ∃ x ∈ xs, isTrue x = true  := by rw [ht, List.any_eq_true]
      _        ↔ ∃ x ∈ xs, x ≠ 0            := exists_congr fun _ => and_congr_right fun _ => decide_eq_true_iff
  all_goals trivial

theorem settles_iff (h : operation? float a opcode = some f) (hf : a ≠ .floating) (hs : 0 < size)
    (hl : 2 ≤ xs.length) : Fold.Settles f xs (Truth opcode xs) ↔ (opcode = .lxor → Fold.Proper xs) := by
  have : NeZero (1 : BitVec (8 * size)) := ⟨one_ne_zero_of_pos hs⟩
  by_cases hx : opcode = .lxor
  case pos =>
    subst hx
    obtain rfl := Option.some.inj (h.symm.trans (operation_lxor float hf))
    simp only [true_implies]
    exact Fold.exclusive_iff hl
  case neg =>
    have ⟨_, _⟩ := operation_laws h hf hx hs
    have ⟨r, hr⟩ : ∃ r, Fold.fold1 f xs = some r := Fold.fold1_isSome fun he => by simp [he] at hl
    simp only [hx, false_implies, iff_true]
    exact Fold.settles_of_fold1 hr (truth_of_fold1 h hf hx hs hr)

end Operations

section Elements

variable {size : Nat} {f : BitVec (8 * size) → BitVec (8 * size) → BitVec (8 * size)}

-- The iterations touch one element each.
theorem accumulate_upTo (f : BitVec (8 * size) → BitVec (8 * size) → BitVec (8 * size)) (buf bufLocal : Mem)
    (k j : Nat) : (accumulate size f buf bufLocal k).load size (size * j) =
      if j < k then f (buf.load size (size * j)) (bufLocal.load size (size * j)) else buf.load size (size * j) := by
  induction k generalizing j
  case zero => simp [accumulate]
  case succ k hi =>
    have hk : accumulate size f buf bufLocal (k + 1) = (accumulate size f buf bufLocal k).store (size * k)
        (f ((accumulate size f buf bufLocal k).load size (size * k)) (bufLocal.load size (size * k))) := by
      simp [accumulate, List.range_succ]
    rw [hk]
    rcases Nat.lt_trichotomy j k with hj | rfl | hj
    · have hle : size * j + size ≤ size * k := Nat.mul_le_mul_left size hj
      rw [Mem.load_store_disjoint (.inl hle), hi, if_pos hj, if_pos (Nat.lt_succ_of_lt hj)]
    · rw [Mem.load_store_same, hi, if_neg (Nat.lt_irrefl j), if_pos (Nat.lt_succ_self j)]
    · have hle : size * k + size ≤ size * j := Nat.mul_le_mul_left size hj
      rw [Mem.load_store_disjoint (.inr hle), hi, if_neg (Nat.lt_asymm hj), if_neg (Nat.not_lt.mpr hj)]

theorem accumulate_load (f : BitVec (8 * size) → BitVec (8 * size) → BitVec (8 * size)) (buf bufLocal : Mem)
    (hj : j < len) : (accumulate size f buf bufLocal len).load size (size * j) =
      f (buf.load size (size * j)) (bufLocal.load size (size * j)) := by
  rw [accumulate_upTo, if_pos hj]

end Elements

section Order

variable {float : Floating} {len : Nat} {datatype : MPIDatatype} {opcode : MPIOpcode} {vs : List Mem}

abbrev elementSize (datatype : MPIDatatype) : Nat :=
  datatype.sizeof?.getD 0

abbrev Element (datatype : MPIDatatype) : Type :=
  BitVec (8 * elementSize datatype)

def element (datatype : MPIDatatype) (j : Nat) (v : Mem) : Element datatype :=
  v.load (elementSize datatype) (elementSize datatype * j)

-- The integer datatypes, and the opcodes that `mpi_opcode` has for them.
def Supported (float : Floating) (datatype : MPIDatatype) (opcode : MPIOpcode) : Prop :=
  ∃ a, arith? datatype = some a ∧ a ≠ .floating ∧
    ∃ f : Element datatype → Element datatype → Element datatype, operation? float a opcode = some f

-- The contributions one after the other. Anything but `0` from `mpi_opcode` ends the process.
def accumulateAll (float : Floating) (len : Nat) (datatype : MPIDatatype) (opcode : MPIOpcode) :
    Mem → List Mem → Program Mem
  | buf, []             => return buf
  | buf, bufLocal :: vs => do
    let (err, buf) ← mpiOpcode float buf bufLocal len datatype opcode
    if err ≠ 0 then .exit
    accumulateAll float len datatype opcode buf vs

-- Every order of the vectors gives the same elements, with the truth values that a logical opcode asks for.
def OrderFree (float : Floating) (len : Nat) (datatype : MPIDatatype) (opcode : MPIOpcode) (vs : List Mem) : Prop :=
  ∃ b : Mem, (∀ j < len, Truth opcode (vs.map (element datatype j)) (element datatype j b)) ∧
    ∀ v ws, (v :: ws).Perm vs → ∃ b', accumulateAll float len datatype opcode v ws = pure b' ∧
      ∀ j < len, element datatype j b' = element datatype j b

theorem elementSize_pos (h : arith? datatype = some a) : 0 < elementSize datatype := by
  cases datatype <;> first | contradiction | decide

variable {f : Element datatype → Element datatype → Element datatype}

theorem accumulateAll_eq (ha : arith? datatype = some a) (ho : operation? float a opcode = some f) (v : Mem)
    (ws : List Mem) :
    accumulateAll float len datatype opcode v ws = pure (ws.foldl (accumulate _ f · · len) v) := by
  induction ws generalizing v
  case nil          => rfl
  case cons w ws hi =>
    rw [accumulateAll, mpiOpcode, ha]
    simp only [ho]
    exact hi _

theorem fold1_element (f : Element datatype → Element datatype → Element datatype) (hj : j < len) (v : Mem)
    (ws : List Mem) : Fold.fold1 f ((v :: ws).map (element datatype j)) =
      some (element datatype j (ws.foldl (accumulate _ f · · len) v)) :=
  (Fold.fold1_map (fun v w => accumulate_load f v w hj) (v :: ws)).symm

theorem orderFree_iff_settles (ha : arith? datatype = some a) (ho : operation? float a opcode = some f)
    (hl : vs ≠ []) : OrderFree float len datatype opcode vs ↔
      ∀ j < len, Fold.Settles f (vs.map (element datatype j)) (Truth opcode (vs.map (element datatype j))) := by
  constructor
  case mp =>
    intro ⟨b, ht, hall⟩ j hj
    refine ⟨element datatype j b, ht j hj, fun ys hp => ?_⟩
    have ⟨ws, hws, he⟩ := exists_perm_map hp
    match ws, hws with
    | [],      hws => exact absurd hws.symm.eq_nil hl
    | w :: ws, hws =>
      have ⟨b', hb', heq⟩ := hall w ws hws
      rw [accumulateAll_eq ha ho] at hb'
      rw [← he, fold1_element f hj, Prog.ret.inj hb', heq j hj]
  case mpr =>
    intro h
    match vs, hl with
    | v :: ws, _ =>
      refine ⟨ws.foldl (accumulate _ f · · len) v, fun j hj => ?_, fun v' ws' hp => ?_⟩
      · have ⟨r, hr, hall⟩ := h j hj
        have he := hall _ (.refl _)
        rw [fold1_element f hj] at he
        rwa [Option.some.inj he]
      · refine ⟨_, accumulateAll_eq ha ho v' ws', fun j hj => ?_⟩
        have ⟨r, _, hall⟩ := h j hj
        have he := hall _ (.refl _)
        have he' := hall _ (hp.map _)
        rw [fold1_element f hj] at he he'
        rw [Option.some.inj he, Option.some.inj he']

theorem orderFree_iff (float : Floating) (len : Nat) (hs : Supported float datatype opcode) (hl : 2 ≤ vs.length) :
    OrderFree float len datatype opcode vs ↔
      (opcode = .lxor → ∀ j < len, Fold.Proper (vs.map (element datatype j))) := by
  have ⟨a, ha, hf, f, ho⟩ := hs
  rw [orderFree_iff_settles ha ho fun he => by simp [he] at hl]
  have hj (j : Nat) : Fold.Settles f (vs.map (element datatype j)) (Truth opcode (vs.map (element datatype j))) ↔
      (opcode = .lxor → Fold.Proper (vs.map (element datatype j))) :=
    settles_iff ho hf (elementSize_pos ha) (by rwa [List.length_map])
  simp only [hj]
  exact ⟨fun h hx j hj => h j hj hx, fun h j hj hx => h hx j hj⟩

theorem orderFree_iff_int :
    let vs := [Mem.ofList [1], Mem.ofList [1], Mem.ofList [0]]
    Supported (fun _ _ x _ => x) .int .lxor ∧ 2 ≤ vs.length ∧
      (OrderFree (fun _ _ x _ => x) 1 .int .lxor vs ↔ ∀ j < 1, Fold.Proper (vs.map (element .int j))) := by
  intro vs
  have hs : Supported (fun _ _ x _ => x) .int .lxor := ⟨.signed, rfl, by decide, _, rfl⟩
  have h := orderFree_iff (fun _ _ x _ => x) 1 hs (by decide : 2 ≤ vs.length)
  exact ⟨hs, by decide, by simpa only [true_implies] using h⟩

-- Of the values `2`, `1` and `1` the first two differ, which is the third, and the last two are equal, which the first
-- is not.
theorem not_orderFree :
    let vs := [Mem.ofList [2], Mem.ofList [1], Mem.ofList [1]]
    Supported (fun _ _ x _ => x) .int .lxor ∧ 2 ≤ vs.length ∧ ¬OrderFree (fun _ _ x _ => x) 1 .int .lxor vs := by
  refine ⟨⟨.signed, rfl, by decide, _, rfl⟩, by decide, fun ⟨b, _, h⟩ => ?_⟩
  have ho : operation? (fun _ _ x _ => x) .signed .lxor = some fun x y : Element .int => ofCondition (x ≠ y) := rfl
  have hp : ([Mem.ofList [1], Mem.ofList [1]] ++ [Mem.ofList [2]]).Perm ([Mem.ofList [2]] ++ _) := List.perm_append_comm
  have ⟨b₁, h₁, he₁⟩ := h (Mem.ofList [2]) [Mem.ofList [1], Mem.ofList [1]] (.refl _)
  have ⟨b₂, h₂, he₂⟩ := h (Mem.ofList [1]) [Mem.ofList [1], Mem.ofList [2]] hp
  rw [accumulateAll_eq rfl ho] at h₁ h₂
  have he := (he₁ 0 (by decide)).trans (he₂ 0 (by decide)).symm
  rw [← Prog.ret.inj h₁, ← Prog.ret.inj h₂] at he
  exact absurd he (by decide)

end Order

end Mpi
