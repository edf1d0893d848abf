import XdpCollectives.Fold.Basic
import Mathlib.Algebra.Ring.Parity

-- Folding with "is not equal to", whose results are zero and one, in place of the exclusive or of truth values.
namespace Fold

variable {α : Type*} [DecidableEq α] [Zero α] [One α] {x y r b : α} {xs ys : List α}

def differ (x y : α) : α :=
  if x = y then 0 else 1

def Bit (x : α) : Prop :=
  x = 0 ∨ x = 1

-- The number of values that are true.
def truths (xs : List α) : Nat :=
  xs.countP fun x => x ≠ 0

-- In every order of the values the result is true when an odd number of them is.
def Exclusive (xs : List α) : Prop :=
  Settles differ xs fun r => r ≠ 0 ↔ Odd (truths xs)

-- The values are zeros and ones, or an odd number of them is true and none is one, or two of them are equal and the
-- only other one, if any, is one.
def Proper (xs : List α) : Prop :=
  (∀ x ∈ xs, Bit x) ∨ (1 ∉ xs ∧ Odd (truths xs)) ∨ (∃ b, xs.Perm [b, b]) ∨ ∃ b, xs.Perm [b, b, 1]

theorem bit_differ (x y : α) : Bit (differ x y) := by
  rw [differ]
  split
  case isTrue  => exact .inl rfl
  case isFalse => exact .inr rfl

theorem differ_of_ne (h : x ≠ y) : differ x y = 1 :=
  if_neg h

theorem differ_self (x : α) : differ x x = 0 :=
  if_pos rfl

omit [One α] in
theorem truths_cons (x : α) (xs : List α) : truths (x :: xs) = truths xs + if x = 0 then 0 else 1 := by
  rw [truths, List.countP_cons, truths]
  congr 1
  by_cases hx : x = 0 <;> simp [hx]

omit [One α] in
theorem truths_perm (h : ys.Perm xs) : truths ys = truths xs :=
  h.countP_eq _

theorem bit_foldl (hr : Bit r) (xs : List α) : Bit (xs.foldl differ r) := by
  induction xs generalizing r
  case nil          => exact hr
  case cons x xs hi => exact hi (bit_differ r x)

variable [NeZero (1 : α)]

section Proper

theorem foldl_bits (hr : Bit r) (h : ∀ x ∈ xs, Bit x) :
    xs.foldl differ r = if Odd (truths (r :: xs)) then 1 else 0 := by
  induction xs generalizing r
  case nil =>
    rcases hr with rfl | rfl <;> simp [truths]
  case cons x xs hi =>
    have ⟨hx, hxs⟩ := List.forall_mem_cons.mp h
    rw [List.foldl_cons, hi (bit_differ r x) hxs]
    rcases hr with rfl | rfl <;> rcases hx with rfl | rfl <;> simp [truths, differ, Nat.odd_add_one]

omit [NeZero (1 : α)] in
-- One is the result as soon as two values have differed, when none of the others is one.
theorem foldl_one (h : 1 ∉ xs) : xs.foldl differ 1 = 1 := by
  induction xs
  case nil          => rfl
  case cons x xs hi =>
    rw [List.mem_cons, not_or] at h
    rw [List.foldl_cons, differ_of_ne h.left, hi h.right]

omit [NeZero (1 : α)] in
theorem foldl_zero (h : 1 ∉ xs) : xs.foldl differ 0 = if truths xs = 0 then 0 else 1 := by
  induction xs
  case nil          => rfl
  case cons x xs hi =>
    rw [List.mem_cons, not_or] at h
    rw [List.foldl_cons]
    by_cases hx : x = 0
    case pos =>
      rw [hx, differ_self, hi h.right]
      simp [truths]
    case neg =>
      rw [differ_of_ne (Ne.symm hx), foldl_one h.right, if_neg]
      simp [truths, hx]

omit [NeZero (1 : α)] in
theorem fold1_odd (h1 : 1 ∉ ys) (ho : Odd (truths ys)) (hl : 2 ≤ ys.length) : fold1 differ ys = some 1 := by
  match ys, hl with
  | x :: y :: zs, _ =>
    simp only [List.mem_cons, not_or] at h1
    rw [fold1, List.foldl_cons]
    by_cases hxy : x = y
    case neg => rw [differ_of_ne hxy, foldl_one h1.right.right]
    case pos =>
      subst hxy
      rw [differ_self, foldl_zero h1.right.right, if_neg]
      intro hz
      rw [truths_cons, truths_cons, hz] at ho
      split at ho <;> exact absurd ho (by decide)

omit [DecidableEq α] [Zero α] [NeZero (1 : α)] in
theorem perm_pair_one (h : ys.Perm [b, b, 1]) : ys = [b, b, 1] ∨ ys = [b, 1, b] ∨ ys = [1, b, b] := by
  have ⟨l, r, he⟩ := List.append_of_mem (h.symm.subset (by simp : (1 : α) ∈ [b, b, 1]))
  have hp : (l ++ r).Perm (List.replicate 2 b) := by
    refine (List.perm_cons 1).mp (List.perm_middle.symm.trans (he ▸ h |>.trans ?_))
    exact (List.perm_append_comm : ([b, b] ++ [1]).Perm ([1] ++ [b, b]))
  have hlr : l ++ r = [b, b] := List.perm_replicate.mp hp
  subst he
  match l, hlr with
  | [],     hlr => exact .inr (.inr (by rw [List.nil_append] at hlr ⊢; rw [hlr]))
  | [_],    hlr => simp_all
  | [_, _], hlr => simp_all

theorem Proper.exclusive (h : Proper xs) (hl : 2 ≤ xs.length) : Exclusive xs := by
  rcases h with h | ⟨h1, ho⟩ | ⟨b, h⟩ | ⟨b, h⟩
  · refine ⟨if Odd (truths xs) then 1 else 0, by split <;> simp [*], fun ys hp => ?_⟩
    rw [← truths_perm hp]
    match ys, hp with
    | [], hp      => simp [hp.symm.eq_nil] at hl
    | y :: ys, hp =>
      have hb : ∀ x ∈ y :: ys, Bit x := fun x hx => h x (hp.subset hx)
      exact congrArg some (foldl_bits (hb y List.mem_cons_self) fun x hx => hb x (List.mem_cons_of_mem _ hx))
  · refine ⟨1, by simp [ho], fun ys hp => fold1_odd ?_ (truths_perm hp ▸ ho) (hp.length_eq ▸ hl)⟩
    exact fun hm => h1 (hp.subset hm)
  · refine ⟨0, ?_, fun ys hp => ?_⟩
    · rw [truths_perm h, truths_cons, truths_cons]
      split <;> simp [truths]
    · have he : ys = [b, b] := List.perm_replicate.mp ((hp.trans h : ys.Perm (List.replicate 2 b)))
      rw [he]
      simp [fold1, differ_self]
  · refine ⟨1, ?_, fun ys hp => ?_⟩
    · rw [truths_perm h, truths_cons, truths_cons, truths_cons]
      by_cases hb : b = 0
      case pos => simp [truths, hb]
      case neg =>
        simp [truths, hb]
        decide
    · rcases perm_pair_one (hp.trans h) with rfl | rfl | rfl
      · simp [fold1, differ]
      · by_cases hb : b = 1
        case pos => simp [fold1, differ, hb]
        case neg => simp [fold1, differ, hb, Ne.symm hb]
      · by_cases hb : b = 1
        case pos => simp [fold1, differ, hb]
        case neg => simp [fold1, differ, Ne.symm hb]

-- A value that is neither zero nor one is the result of no other values than itself alone.
omit [NeZero (1 : α)] in
theorem eq_singleton_of_fold1 (h : fold1 differ xs = some b) (hb : ¬Bit b) : xs = [b] := by
  match xs, h with
  | [x], h         => exact congrArg (fun x => [x]) (Option.some.inj h)
  | x :: y :: l, h => exact absurd (Option.some.inj h ▸ bit_foldl (bit_differ x y) l) hb

theorem Exclusive.proper (h : Exclusive xs) (hl : 2 ≤ xs.length) : Proper xs := by
  have ⟨r, ht, h⟩ := h
  by_cases hbits : ∀ x ∈ xs, Bit x
  case pos => exact .inl hbits
  case neg =>
    rw [not_forall] at hbits
    have ⟨b, hbits⟩ := hbits
    rw [not_forall] at hbits
    have ⟨hm, hb⟩ := hbits
    have hb1 : b ≠ 1 := fun he => hb (.inr he)
    by_cases h1 : 1 ∈ xs
    case neg =>
      -- The value comes last: it differs from what the others give, or is the only other one.
      have hp : (xs.erase b ++ [b]).Perm xs := List.perm_append_comm.trans (List.perm_cons_erase hm).symm
      have hne : xs.erase b ≠ [] := fun he => by
        have := hp.length_eq
        simp [he] at this
        omega
      have ⟨m, hf⟩ : ∃ m, fold1 differ (xs.erase b) = some m := fold1_isSome hne
      have hr := Option.some.inj ((fold1_append hf [b]).symm.trans (h _ hp))
      rw [List.foldl_cons, List.foldl_nil] at hr
      by_cases hmb : m = b
      case pos =>
        rw [hmb] at hf
        rw [eq_singleton_of_fold1 hf hb] at hp
        exact .inr (.inr (.inl ⟨b, hp.symm⟩))
      case neg =>
        rw [differ_of_ne hmb] at hr
        exact .inr (.inl ⟨h1, ht.mp (hr ▸ one_ne_zero)⟩)
    case pos =>
      -- The value and a one come last, in the one order and in the other.
      have h1' : 1 ∈ xs.erase b := (List.mem_erase_of_ne (Ne.symm hb1)).mpr h1
      have hp : (b :: 1 :: (xs.erase b).erase 1).Perm xs :=
        ((List.perm_cons_erase h1').symm.cons b).trans (List.perm_cons_erase hm).symm
      generalize (xs.erase b).erase 1 = ms at hp
      have hp₁ : (ms ++ [b, 1]).Perm xs := List.perm_append_comm.trans hp
      have hp₂ : (ms ++ [1, b]).Perm xs := ((List.Perm.swap b 1 []).append_left ms).trans hp₁
      cases hms : ms with
      | nil =>
        subst hms
        have hr := Option.some.inj (h _ hp₁)
        have ht := ht.mp (hr ▸ by simp [differ, hb1])
        rw [← truths_perm hp₁] at ht
        have hb0 : b ≠ 0 := fun he => hb (.inl he)
        simp [truths, hb0] at ht
        exact absurd ht (by decide)
      | cons x l =>
        have ⟨m, hf⟩ : ∃ m, fold1 differ ms = some m := fold1_isSome (by simp [hms])
        have hr₁ := Option.some.inj ((fold1_append hf [b, 1]).symm.trans (h _ hp₁))
        have hr₂ := Option.some.inj ((fold1_append hf [1, b]).symm.trans (h _ hp₂))
        simp only [List.foldl_cons, List.foldl_nil] at hr₁ hr₂
        have hne : differ m 1 ≠ b := fun he => hb (he ▸ bit_differ m 1)
        rw [differ_of_ne hne] at hr₂
        have hmb : m = b := by
          by_contra hmb
          rw [differ_of_ne hmb, differ_self, ← hr₂] at hr₁
          exact zero_ne_one hr₁
        rw [hmb] at hf
        rw [eq_singleton_of_fold1 hf hb] at hp₁
        exact .inr (.inr (.inr ⟨b, hp₁.symm⟩))

theorem exclusive_iff (hl : 2 ≤ xs.length) : Exclusive xs ↔ Proper xs :=
  ⟨fun h => h.proper hl, fun h => h.exclusive hl⟩

end Proper

end Fold
