import XdpCollectives.Script.Flow
import Mathlib.Data.List.Forall2

-- Scripts that consist of rounds.
namespace Script

section Sections

-- The part of a list from where section `i` opens, and what is in that section after its opening.
def since (opens : α → Option Nat) (i : Nat) (l : List α) : List α :=
  l.dropWhile (opens · ≠ some i)

def during (opens : α → Option Nat) (i : Nat) (l : List α) : List α :=
  (since opens i l).tail.takeWhile (opens · = none)

theorem during_subset (opens : α → Option Nat) (i : Nat) (l : List α) : during opens i l ⊆ l :=
  ((List.takeWhile_sublist _).trans ((List.tail_sublist _).trans (List.dropWhile_sublist _))).subset

theorem during_cons_self {opens : α → Option Nat} (h : opens x = some i) (l : List α) :
    during opens i (x :: l) = l.takeWhile (opens · = none) := by
  simp [during, since, h]

theorem during_cons_of_ne {opens : α → Option Nat} (h : opens x ≠ some i) (l : List α) :
    during opens i (x :: l) = during opens i l := by
  simp [during, since, h]

theorem during_append_of_none {opens : α → Option Nat} {u : List α} (h : ∀ x ∈ u, opens x = none) (i : Nat)
    (l : List α) : during opens i (u ++ l) = during opens i l := by
  induction u
  case nil => rfl
  case cons x u hi =>
    have hx : opens x ≠ some i := by simp [h x List.mem_cons_self]
    rw [List.cons_append, during_cons_of_ne hx, hi fun y hy => h y (List.mem_cons_of_mem _ hy)]

section Related

variable {R : α → β → Prop} {f : α → Option Nat} {g : β → Option Nat} {l : List α} {l' : List β}

theorem since_forall₂ (hR : ∀ a b, R a b → f a = g b) (h : List.Forall₂ R l l') (i : Nat) :
    List.Forall₂ R (since f i l) (since g i l') := by
  induction h
  case nil => exact .nil
  case cons a b l l' hab h hi =>
    simp only [since, List.dropWhile_cons, hR a b hab] at hi ⊢
    split
    · exact hi
    · exact .cons hab h

theorem during_forall₂ (hR : ∀ a b, R a b → f a = g b) (h : List.Forall₂ R l l') (i : Nat) :
    List.Forall₂ R (during f i l) (during g i l') := by
  have hs := since_forall₂ hR h i
  rw [during, during]
  generalize since f i l = m at hs
  generalize since g i l' = m' at hs
  cases hs with
  | nil => exact .nil
  | cons _ ht =>
    rw [List.tail_cons, List.tail_cons]
    induction ht
    case nil => exact .nil
    case cons a b l l' hab _ hi =>
      simp only [List.takeWhile_cons, hR a b hab]
      split
      · exact .cons hab hi
      · exact .nil

end Related

-- Section `i` has one element that opens it, at its beginning, and one that closes it, at its end.
structure Section (opens closes : α → Option Nat) (i : Nat) (l : List α) : Prop where
  shape  : ∃ x r y, l = x :: (r ++ [y]) ∧ opens x = some i ∧ closes y = some i ∧
    (∀ z ∈ r ++ [y], opens z = none) ∧ ∀ z ∈ x :: r, closes z = none

def Sections (opens closes : α → Option Nat) (L : List (List α)) : Prop :=
  ∀ i l, L[i]? = some l → Section opens closes i l

variable {opens closes : α → Option Nat} {L : List (List α)} {u v : List α} {x : α}

theorem Section.opens_eq {l : List α} (h : Section opens closes i l) (hx : x ∈ l) (ho : opens x = some j) :
    j = i := by
  have ⟨y, r, z, hl, hy, _, hn, _⟩ := h.shape
  subst hl
  rcases List.mem_cons.mp hx with rfl | hx
  · simpa [ho] using hy
  · simp [hn x hx] at ho

theorem Section.closes_eq {l : List α} (h : Section opens closes i l) (hx : x ∈ l) (ho : closes x = some j) :
    j = i := by
  have ⟨y, r, z, hl, _, hz, _, hn⟩ := h.shape
  subst hl
  rw [← List.cons_append, List.mem_append, List.mem_singleton] at hx
  rcases hx with hx | rfl
  · simp [hn x hx] at ho
  · simpa [ho] using hz

namespace Sections

theorem take (h : Sections opens closes L) : Sections opens closes (L.take n) := by
  intro i l hl
  rw [List.getElem?_take] at hl
  split at hl
  · exact h i l hl
  · contradiction

theorem opens_lt (h : Sections opens closes L) (hx : x ∈ L.flatten) (ho : opens x = some j) :
    j < L.length := by
  have ⟨l, hl, hx⟩ := List.mem_flatten.mp hx
  have ⟨i, hi, hg⟩ := List.mem_iff_getElem.mp hl
  rw [(h i l (hg ▸ List.getElem?_eq_getElem hi)).opens_eq hx ho]
  exact hi

theorem closes_lt (h : Sections opens closes L) (hx : x ∈ L.flatten) (ho : closes x = some j) :
    j < L.length := by
  have ⟨l, hl, hx⟩ := List.mem_flatten.mp hx
  have ⟨i, hi, hg⟩ := List.mem_iff_getElem.mp hl
  rw [(h i l (hg ▸ List.getElem?_eq_getElem hi)).closes_eq hx ho]
  exact hi

theorem opens_ge (h : Sections opens closes L) (hx : x ∈ (L.drop k).flatten) (ho : opens x = some j) :
    k ≤ j := by
  have ⟨l, hl, hx⟩ := List.mem_flatten.mp hx
  have ⟨i, hi, hg⟩ := List.mem_iff_getElem.mp hl
  have hk : L[k + i]? = some l := by
    rw [← List.getElem?_drop, List.getElem?_eq_getElem hi, hg]
  have := (h _ l hk).opens_eq hx ho
  omega

theorem opens_ne (h : Sections opens closes L) (hx : x ∈ (L.take i).flatten) : opens x ≠ some i := by
  intro ho
  have := h.take.opens_lt hx ho
  simp at this

-- A part of the list, from its beginning, ends ahead of section `i`, or goes on with it.
theorem cases_at (hu : u <+: L.flatten) (i : Nat) :
    u <+: (L.take i).flatten ∨ ∃ v, u = (L.take i).flatten ++ v ∧ v <+: (L.drop i).flatten := by
  have hL : L.flatten = (L.take i).flatten ++ (L.drop i).flatten := by
    rw [← List.flatten_append, List.take_append_drop]
  rcases List.prefix_or_prefix_of_prefix hu (hL ▸ List.prefix_append _ _) with h | ⟨v, rfl⟩
  · exact .inl h
  · exact .inr ⟨v, rfl, by rwa [hL, List.prefix_append_right_inj] at hu⟩

-- What comes after the beginning of section `i` opens with that section, and not again with it.
theorem drop_opens (h : Sections opens closes L) (hv : v <+: (L.drop i).flatten) :
    v = [] ∨ ∃ x w, v = x :: w ∧ opens x = some i ∧ ∀ y ∈ w, opens y ≠ some i := by
  cases v with
  | nil      => exact .inl rfl
  | cons y w =>
    cases hd : L.drop i with
    | nil => simp [hd] at hv
    | cons l L' =>
      have hl : L[i]? = some l := by
        have : (L.drop i)[0]? = L[i + 0]? := List.getElem?_drop
        simpa [hd] using this.symm
      have hL : L' = L.drop (i + 1) := by
        rw [← List.tail_drop, hd, List.tail_cons]
      have ⟨x, r, z, he, hx, _, hn, _⟩ := (h i l hl).shape
      rw [hd, List.flatten_cons, he, List.cons_append, List.cons_prefix_cons] at hv
      refine .inr ⟨y, w, rfl, hv.left ▸ hx, fun a ha ho => ?_⟩
      rcases List.mem_append.mp (hv.right.subset ha) with ha | ha
      · simp [hn a ha] at ho
      · have := h.opens_ge (hL ▸ ha) ho
        omega

theorem since_eq (h : Sections opens closes L) (hu : u <+: L.flatten) (i : Nat) :
    since opens i u = u.drop (L.take i).flatten.length := by
  have hn {A : List α} (hA : ∀ x ∈ A, opens x ≠ some i) (v : List α) :
      since opens i (A ++ v) = since opens i v := by
    rw [since, List.dropWhile_append_of_pos (by simpa using hA), since]
  rcases cases_at hu i with hu | ⟨v, rfl, hv⟩
  · have := hn (fun x hx => h.opens_ne (hu.subset hx)) []
    rw [List.append_nil] at this
    rw [this, List.drop_eq_nil_of_le hu.length_le]
    rfl
  · rw [hn (fun x hx => h.opens_ne hx), List.drop_left]
    rcases h.drop_opens hv with rfl | ⟨x, w, rfl, hx, _⟩
    · rfl
    · simp [since, hx]

theorem during_eq (h : Sections opens closes L) (hu : u <+: L.flatten) (hi : (L.take (i + 1)).flatten <+: u)
    (hl : L[i]? = some l) : during opens i u = l.tail := by
  have ⟨x, r, y, he, _, _, hn, _⟩ := (h i l hl).shape
  have ht : (L.take (i + 1)).flatten = (L.take i).flatten ++ l := by
    rw [List.take_add_one, hl]
    simp
  have ⟨v, hv⟩ := hi
  have hd : v <+: (L.drop (i + 1)).flatten := by
    rw [← List.take_append_drop (i + 1) L, List.flatten_append, ← hv, List.prefix_append_right_inj] at hu
    exact hu
  rw [during, h.since_eq hu, ← hv, ht, List.append_assoc, List.drop_left, he, List.cons_append, List.tail_cons,
    List.takeWhile_append_of_pos (by simpa using hn)]
  rcases h.drop_opens hd with rfl | ⟨z, w, rfl, hz, _⟩
  · simp
  · simp [hz]

-- What follows the opening of a section is in that section, up to the next opening.
theorem prefix_during (h : Sections opens closes L) (hu : u <+: L.flatten)
    (hx : (L.take i).flatten ++ x :: v <+: u) (hv : ∀ y ∈ v, opens y = none) : v <+: during opens i u := by
  have ⟨w, hw⟩ := hx
  rw [during, h.since_eq hu, ← hw, List.append_assoc, List.drop_left, List.cons_append, List.tail_cons,
    List.takeWhile_append_of_pos (by simpa using hv)]
  exact List.prefix_append _ _

-- Where a section opens, those before it are complete.
theorem opened (h : Sections opens closes L) (hu : u ++ [x] <+: L.flatten) (hx : opens x = some i) :
    u = (L.take i).flatten := by
  rcases cases_at hu i with hi | ⟨v, hv, hp⟩
  · exact absurd hx <| h.opens_ne (hi.subset (by simp))
  · rcases h.drop_opens hp with rfl | ⟨y, w, rfl, _, hn⟩
    · rw [List.append_nil] at hv
      exact absurd hx <| h.opens_ne (hv ▸ by simp)
    · cases w using List.reverseRecOn with
      | nil => exact (List.append_inj' hv rfl).left
      | append_singleton w z =>
        rw [← List.cons_append, ← List.append_assoc] at hv
        obtain rfl : x = z := by simpa using (List.append_inj' hv rfl).right
        exact absurd hx <| hn x (by simp)

-- Where a section has closed, it is complete.
theorem closed (h : Sections opens closes L) (hu : u <+: L.flatten) (hx : x ∈ u) (hc : closes x = some i) :
    i < L.length ∧ (L.take (i + 1)).flatten <+: u := by
  have hi := h.closes_lt (hu.subset hx) hc
  refine ⟨hi, ?_⟩
  have ⟨y, r, z, he, _, _, _, hn⟩ := (h i L[i] (List.getElem?_eq_getElem hi)).shape
  have ht : (L.take (i + 1)).flatten = ((L.take i).flatten ++ y :: r) ++ [z] := by
    rw [List.take_add_one, List.getElem?_eq_getElem hi, Option.toList_some, List.flatten_append, he]
    simp
  rcases cases_at hu (i + 1) with hu' | ⟨v, rfl, _⟩
  · rw [ht, List.prefix_concat_iff] at hu'
    rcases hu' with rfl | hu'
    · exact ht ▸ List.prefix_rfl
    · have := hu'.subset hx
      rw [List.mem_append] at this
      rcases this with hm | hm
      · have := h.take.closes_lt hm hc
        simp at this
      · simp [hn x hm] at hc
  · exact List.prefix_append _ _

end Sections
end Sections

section Rounds

variable {C M E : Type} [DecidableEq C] {ts : List (Nat → List (Act C M E))} {w : Wiring C}
  {s : State C M E} {c : C}

-- What a process does in the first `i` rounds.
def upto (ts : List (Nat → List (Act C M E))) (i p : Nat) : List (Act C M E) :=
  ((ts.take i).map (· p)).flatten

omit [DecidableEq C] in
theorem upto_length (ts : List (Nat → List (Act C M E))) (p : Nat) :
    upto ts ts.length p = (ts.map (· p)).flatten := by
  rw [upto, List.take_length]

omit [DecidableEq C] in
theorem upto_isPrefix (ts : List (Nat → List (Act C M E))) (i p : Nat) :
    upto ts i p <+: (ts.map (· p)).flatten := by
  refine ⟨((ts.drop i).map (· p)).flatten, ?_⟩
  rw [upto, ← List.flatten_append, ← List.map_append, List.take_append_drop]

theorem drains_upto (hd : ∀ t ∈ ts, Drains t) (i : Nat) : Drains (upto ts i) := by
  have h := Drains.flatMap (l := ts.take i) (t := id) fun t ht => hd t (List.mem_of_mem_take ht)
  simp only [List.flatMap_def, id] at h
  exact h

theorem upto_puts_eq_gets (hd : ∀ t ∈ ts, Drains t) (ho : ∀ t ∈ ts, ∀ p, ∀ a ∈ t p, a.OwnedBy w p)
    (i : Nat) (c : C) :
    (upto ts i (w.writer c)).flatMap (Act.puts c) = (upto ts i (w.reader c)).flatMap (Act.gets c) := by
  refine (drains_upto hd i).puts_eq_gets (fun p a ha => ?_) c
  have ⟨l, hl, ha⟩ := List.mem_flatten.mp ha
  have ⟨t, ht, he⟩ := List.mem_map.mp hl
  exact ho t (List.mem_of_mem_take ht) p a (he ▸ ha)

-- When the reader of a channel has got what it gets from it in the first `i` rounds, only what its
-- writer has put into it in later ones is left.
theorem queue_eq (hd : ∀ t ∈ ts, Drains t) (ho : ∀ t ∈ ts, ∀ p, ∀ a ∈ t p, a.OwnedBy w p)
    (hc : s.Conserves w) (hw : s.done (w.writer c) <+: (ts.map (· (w.writer c))).flatten)
    (hg : (s.done (w.reader c)).flatMap (Act.gets c) = (upto ts i (w.reader c)).flatMap (Act.gets c)) :
    s.queue c = ((s.done (w.writer c)).drop (upto ts i (w.writer c)).length).flatMap (Act.puts c) := by
  have h := hc c
  rw [hg, ← upto_puts_eq_gets hd ho] at h
  rcases List.prefix_or_prefix_of_prefix hw (upto_isPrefix ts i _) with hp | ⟨v, hv⟩
  · rw [List.drop_eq_nil_of_le hp.length_le, List.flatMap_nil]
    have ⟨v, hv⟩ := hp
    have hl := congrArg List.length h
    rw [← hv] at hl
    simp only [List.flatMap_append, List.length_append] at hl
    exact List.eq_nil_of_length_eq_zero (by omega)
  · rw [← hv, List.flatMap_append, List.append_cancel_left_eq] at h
    rw [← hv, List.drop_left, h]

-- Who waits for a message of a round that the writer of the channel has done, waits for one that is
-- there.
theorem queue_ne_nil (hd : ∀ t ∈ ts, Drains t) (ho : ∀ t ∈ ts, ∀ p, ∀ a ∈ t p, a.OwnedBy w p)
    (hc : s.Conserves w) (hw : upto ts i (w.writer c) <+: s.done (w.writer c))
    (hr : s.done (w.reader c) ++ [.get c m] <+: upto ts i (w.reader c)) : s.queue c ≠ [] := by
  intro hq
  have h := congrArg List.length (hc c)
  have he := congrArg List.length (upto_puts_eq_gets hd ho i c)
  have ⟨v, hv⟩ := hw
  have ⟨v', hv'⟩ := hr
  simp only [← hv, ← hv', hq, List.flatMap_append, List.flatMap_cons, List.flatMap_nil, List.length_append, Act.gets,
    if_true, List.length_cons, List.length_nil] at h he
  omega

-- A process that has put more messages into a channel than there are in the first part of its script
-- has done that part, and the action after it.
theorem done_prefix_of_puts {t pre : List (Act C M E)} (post : List (Act C M E)) {a : Act C M E}
    (ht : t <+: pre ++ a :: post)
    (hl : (pre.flatMap (Act.puts c)).length < (t.flatMap (Act.puts c)).length) : pre ++ [a] <+: t := by
  rcases List.prefix_or_prefix_of_prefix ht (List.prefix_append pre (a :: post)) with h | ⟨v, rfl⟩
  · have ⟨w, hw⟩ := h
    rw [← hw, List.flatMap_append, List.length_append] at hl
    omega
  · cases v with
    | nil      => simp at hl
    | cons b v =>
      rw [List.prefix_append_right_inj, List.cons_prefix_cons] at ht
      rw [List.prefix_append_right_inj, ht.left]
      exact ⟨v, rfl⟩

end Rounds
end Script
