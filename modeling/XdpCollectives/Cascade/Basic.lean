import Mathlib.Data.List.Pairwise
import Mathlib.Logic.Function.Basic
import XdpCollectives.Cycle.Basic

-- Something goes from a root to all of `n` places: every other place gets it from the place above it, in an order in
-- which that one comes first.
structure Cascade where
  n         : Nat
  root      : Nat
  above     : Nat → Nat
  order     : List Nat
  root_lt   : root < n
  mem_order : ∀ r, r ∈ order ↔ r < n ∧ r ≠ root
  nodup     : order.Nodup
  above_lt  : ∀ r < n, r ≠ root → above r < n
  above_ne  : ∀ r < n, r ≠ root → above r ≠ r
  early     : order.Pairwise fun q r => above q ≠ r

namespace Cascade

variable {t : Cascade} {p q r : Nat}

-- The places that get it from a place.
def below (t : Cascade) (r : Nat) : List Nat :=
  t.order.filter (t.above · = r)

theorem mem_below : q ∈ t.below p ↔ q < t.n ∧ q ≠ t.root ∧ t.above q = p := by
  simp [below, t.mem_order, and_assoc]

theorem below_nodup (p : Nat) : (t.below p).Nodup :=
  t.nodup.filter _

theorem below_ne (h : q ∈ t.below r) : q ≠ r := by
  obtain ⟨hlt, hne, rfl⟩ := mem_below.mp h
  exact (t.above_ne q hlt hne).symm

theorem below_eq_nil (h : ∀ q < t.n, q ≠ t.root → t.above q ≠ r) : t.below r = [] := by
  refine List.eq_nil_iff_forall_not_mem.mpr fun q hq => ?_
  obtain ⟨hlt, hne, hup⟩ := mem_below.mp hq
  exact h q hlt hne hup

theorem below_eq_singleton (h : ∀ q, q < t.n ∧ q ≠ t.root ∧ t.above q = r ↔ q = p) : t.below r = [p] := by
  have hm : ∀ q, q ∈ t.below r ↔ q ∈ [p] := fun q => by rw [mem_below, h q, List.mem_singleton]
  have hp := (List.perm_ext_iff_of_nodup (below_nodup r) (List.nodup_singleton p)).mpr hm
  exact List.perm_singleton.mp hp

-- No two places are above each other.
theorem acyclic (hq : q < t.n) (hqr : q ≠ t.root) (hr : r < t.n) (hrr : r ≠ t.root) (h : t.above q = r) :
    t.above r ≠ q := by
  have hs : Std.Symm fun q r => ¬(t.above q = r ∧ t.above r = q) := ⟨fun _ _ h h' => h ⟨h'.right, h'.left⟩⟩
  have hp : t.order.Pairwise fun q r => ¬(t.above q = r ∧ t.above r = q) := t.early.imp fun h h' => h h'.left
  have hne : q ≠ r := fun he => t.above_ne q hq hqr (h.trans he.symm)
  exact fun h' => hp.forall ((t.mem_order q).mpr ⟨hq, hqr⟩) ((t.mem_order r).mpr ⟨hr, hrr⟩) hne ⟨h, h'⟩

-- A place comes behind the one above it, and before those below it.
theorem order_split (hr : r < t.n) (hne : r ≠ t.root) :
    ∃ l₁ l₂, t.order = l₁ ++ r :: l₂ ∧ r ∉ l₁ ∧ r ∉ l₂ ∧ t.above r ∉ l₂ ∧ (∀ q ∈ l₁, t.above q ≠ r) ∧
      t.below r = l₂.filter (t.above · = r) := by
  obtain ⟨l₁, l₂, h⟩ := List.append_of_mem ((t.mem_order r).mpr ⟨hr, hne⟩)
  have hd := t.nodup
  have he := t.early
  rw [h, List.nodup_append] at hd
  rw [h, List.pairwise_append] at he
  obtain ⟨_, hd₂, hd⟩ := hd
  have hup : ∀ q ∈ l₁, t.above q ≠ r := fun q hq => he.right.right q hq r List.mem_cons_self
  refine ⟨l₁, l₂, h, fun hm => hd r hm r List.mem_cons_self rfl, (List.nodup_cons.mp hd₂).left,
    fun hm => List.rel_of_pairwise_cons he.right.left hm rfl, hup, ?_⟩
  rw [below, h, List.filter_append, List.filter_eq_nil_iff.mpr fun q hq => by simpa using hup q hq,
    List.filter_cons_of_neg (by simpa using t.above_ne r hr hne), List.nil_append]

section Spread

variable {α : Type} (t) (g : Nat → α → α) (a : α)

-- What all places have when the root has `a`, and every other place makes something of what is above it.
def spread : Nat → α :=
  t.order.foldl (fun m r => Function.update m r (g r (m (t.above r)))) fun _ => a

variable {t g a}

theorem foldl_of_not_mem {l : List Nat} (h : r ∉ l) (m : Nat → α) :
    l.foldl (fun m r => Function.update m r (g r (m (t.above r)))) m r = m r := by
  induction l generalizing m with
  | nil         => rfl
  | cons q l hi =>
    obtain ⟨hq, hl⟩ := not_or.mp (List.mem_cons.not.mp h)
    rw [List.foldl_cons, hi hl, Function.update_of_ne hq]

theorem spread_root : t.spread g a t.root = a :=
  foldl_of_not_mem (fun h => ((t.mem_order _).mp h).right rfl) _

theorem spread_eq (hr : r < t.n) (hne : r ≠ t.root) : t.spread g a r = g r (t.spread g a (t.above r)) := by
  obtain ⟨l₁, l₂, ho, _, h₂, hup, _⟩ := t.order_split hr hne
  have hne' := t.above_ne r hr hne
  rw [spread, ho, List.foldl_append, List.foldl_cons, foldl_of_not_mem h₂, foldl_of_not_mem hup, Function.update_self,
    Function.update_of_ne hne']

end Spread

-- What holds of the root and goes from a place to those below it holds of all places.
theorem induct {φ : Nat → Prop} (hroot : φ t.root) (h : ∀ r < t.n, r ≠ t.root → φ (t.above r) → φ r) :
    ∀ r < t.n, φ r := by
  have horder : ∀ l₂ l₁, l₁ ++ l₂ = t.order → (∀ q ∈ l₁, φ q) → ∀ q ∈ l₂, φ q := by
    intro l₂
    induction l₂ with
    | nil         => simp
    | cons r l hi =>
      intro l₁ hl h₁
      obtain ⟨hr, hne⟩ := (t.mem_order r).mp (hl ▸ List.mem_append_right _ List.mem_cons_self)
      have hup : φ (t.above r) := by
        by_cases he : t.above r = t.root
        case pos => exact he ▸ hroot
        case neg =>
          have hm : t.above r ∈ l₁ ++ r :: l := hl ▸ (t.mem_order _).mpr ⟨t.above_lt r hr hne, he⟩
          rcases List.mem_append.mp hm with hm | hm
          · exact h₁ _ hm
          · rcases List.mem_cons.mp hm with hm | hm
            · exact absurd hm (t.above_ne r hr hne)
            · have hp := t.early
              rw [← hl, List.pairwise_append] at hp
              exact absurd rfl (List.rel_of_pairwise_cons hp.right.left hm)
      have hφ := h r hr hne hup
      refine List.forall_mem_cons.mpr ⟨hφ, hi (l₁ ++ [r]) (by simpa using hl) fun q hq => ?_⟩
      rcases List.mem_append.mp hq with hq | hq
      · exact h₁ q hq
      · exact List.mem_singleton.mp hq ▸ hφ
  intro r hr
  by_cases he : r = t.root
  case pos => exact he ▸ hroot
  case neg => exact horder t.order [] rfl (by simp) r ((t.mem_order r).mpr ⟨hr, he⟩)

variable {n root : Nat}

-- From each place of a cycle to the next one.
def cycle (n root : Nat) (hroot : root < n) : Cascade where
  n         := n
  root      := root
  above r   := (r + n - 1) % n
  order     := (List.range (n - 1)).map fun k => (root + (k + 1)) % n
  root_lt   := hroot
  mem_order := fun r => by
    rw [List.mem_map]
    constructor
    case mp =>
      rintro ⟨k, hk, rfl⟩
      have hk := List.mem_range.mp hk
      exact ⟨Nat.mod_lt _ (by omega), Cycle.add_mod_ne hroot (by omega) (by omega)⟩
    case mpr =>
      rintro ⟨hr, hne⟩
      have hd := Cycle.distance_pos hroot hr hne.symm
      have hlt := Cycle.distance_lt hroot r
      refine ⟨Cycle.distance n root r - 1, List.mem_range.mpr (by omega), ?_⟩
      rw [Nat.sub_add_cancel hd, Cycle.add_distance hroot hr]
  nodup     := by
    refine List.Nodup.map_on (fun j hj k hk h => ?_) List.nodup_range
    rw [List.mem_range] at hj hk
    have := Cycle.add_mod_injOn (by omega) (by omega) h
    omega
  above_lt  := fun r hr _ => Nat.mod_lt _ (by omega)
  above_ne  := fun r hr hne => by
    rw [Nat.add_sub_assoc (by omega)]
    exact Cycle.add_mod_ne hr (by omega) (by omega)
  early     := by
    rw [List.pairwise_map]
    refine List.pairwise_lt_range.imp_of_mem fun {j k} hj hk hlt h => ?_
    rw [List.mem_range] at hj hk
    rw [Cycle.add_mod_pred (by omega)] at h
    have := Cycle.add_mod_injOn (by omega) (by omega) h
    omega

theorem cycle_below {hroot : root < n} (hr : r < n) (h : (r + 1) % n ≠ root) :
    (cycle n root hroot).below r = [(r + 1) % n] := by
  have hn : 0 < n := by omega
  refine below_eq_singleton fun q => ⟨?_, ?_⟩
  · rintro ⟨hq, _, rfl⟩
    have hq : q < n := hq
    show q = ((q + n - 1) % n + 1) % n
    rw [Nat.mod_add_mod, show q + n - 1 + 1 = q + n by omega, Nat.add_mod_right, Nat.mod_eq_of_lt hq]
  · rintro rfl
    refine ⟨Nat.mod_lt _ hn, h, ?_⟩
    exact (Cycle.add_mod_pred hn r 0).trans (Nat.mod_eq_of_lt hr)

-- From the root to every place.
def star (n root : Nat) (hroot : root < n) : Cascade where
  n         := n
  root      := root
  above _   := root
  order     := (List.range n).filter (· ≠ root)
  root_lt   := hroot
  mem_order := fun r => by simp
  nodup     := List.nodup_range.filter _
  above_lt  := fun _ _ _ => hroot
  above_ne  := fun _ _ hne => hne.symm
  early     := List.pairwise_filter.mpr <| List.pairwise_of_forall fun _ _ _ h => (of_decide_eq_true h).symm

theorem star_below {hroot : root < n} : (star n root hroot).below root = (List.range n).filter (· ≠ root) := by
  simp [below, star]

theorem star_below_leaf {hroot : root < n} (h : r ≠ root) : (star n root hroot).below r = [] :=
  below_eq_nil fun _ _ _ hup => h hup.symm

end Cascade
