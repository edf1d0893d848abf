import XdpCollectives.Mesh.Basic
import Mathlib.Data.List.Perm.Subperm

namespace Mesh

variable {n r c i : Nat} {s s' : State} {l : Label} {ls : List Label}

-- How far a rank has come in the loop.
def Phase.index (n : Nat) : Phase → Nat
  | starting => 0
  | loop i   => i
  | left     => n

abbrev State.index (s : State) (n r : Nat) : Nat :=
  (s.phase r).index n

@[simp]
theorem arrivals_nil : arrivals [] r = [] := rfl

theorem arrivals_append :
    arrivals (ls ++ [l]) r = arrivals ls r ++ arrivals [l] r := by
  simp [arrivals]

@[simp]
theorem arrivals_connect : arrivals [.connect c r] i = if r = i then [c] else [] := by
  simp only [arrivals, List.filterMap_cons, List.filterMap_nil]
  split <;> split <;> simp_all

-- The connections to a rank are those of the lower ranks that have come past it. It has accepted
-- one for each lower index that it has come past itself.
structure Invariant (n : Nat) (ls : List Label) (s : State) : Prop where
  bound     : ∀ r < n, s.index n r ≤ n
  arrived   : ∀ r < n, ∀ c < n, c ∈ arrivals ls r ↔ c < r ∧ r < s.index n c
  clients   : ∀ r < n, ∀ c ∈ arrivals ls r, c < n
  nodup     : ∀ r < n, (arrivals ls r).Nodup
  queue     : ∀ r < n, s.queue r = (arrivals ls r).drop (min (s.index n r) r)
  accepted  : ∀ r < n, ∀ i < min (s.index n r) r,
                ∃ c, (arrivals ls r)[i]? = some c ∧ s.table r i = some (.server c r)
  connected : ∀ r < n, ∀ i, r < i → i < s.index n r → s.table r i = some (.client r i)

namespace Invariant

theorem start : Invariant n [] .start where
  bound     := by simp [State.index, State.start, Phase.index]
  arrived   := by simp [State.index, State.start, Phase.index]
  clients   := by simp
  nodup     := by simp
  queue     := by simp [State.start]
  accepted  := by simp [State.index, State.start, Phase.index]
  connected := by simp [State.index, State.start, Phase.index]

-- A step that moves a rank without a connection to do or to accept at its index.
theorem goto (h : Invariant n ls s) (hl : ∀ r, arrivals [l] r = []) {p : Phase}
    (hb : p.index n ≤ n) (hi : ∀ i < n, i ≠ r → (i < p.index n ↔ i < s.index n r)) :
    Invariant n (ls ++ [l]) (s.goto r p) := by
  have ha i : arrivals (ls ++ [l]) i = arrivals ls i := by
    simp [arrivals_append, hl]
  have hx i : (s.goto r p).index n i = if i = r then p.index n else s.index n i := by
    simp only [State.index, State.goto, Function.update_apply]
    split <;> rfl
  have hm i (hn : i < n) : min ((s.goto r p).index n i) i = min (s.index n i) i := by
    rw [hx]
    split
    case isTrue he =>
      subst he
      by_contra hne
      have h₁ := hi (min (p.index n) (s.index n i))
      omega
    case isFalse => rfl
  exact {
    bound     := by
      intro i hn
      rw [hx]
      split
      · exact hb
      · exact h.bound i hn
    arrived   := by
      intro i hn c hc
      rw [ha, h.arrived i hn c hc, hx]
      split
      case isTrue he =>
        subst he
        have := hi i hn
        constructor <;> intro ⟨h₁, h₂⟩
        · exact ⟨h₁, (this (by omega)).mpr h₂⟩
        · exact ⟨h₁, (this (by omega)).mp h₂⟩
      case isFalse => rfl
    clients   := fun i hn => ha i ▸ h.clients i hn
    nodup     := fun i hn => ha i ▸ h.nodup i hn
    queue     := by
      intro i hn
      rw [ha, hm i hn]
      exact h.queue i hn
    accepted  := by
      intro i hn k hk
      rw [hm i hn] at hk
      rw [ha]
      exact h.accepted i hn k hk
    connected := by
      intro i hn k hk hp
      rw [hx] at hp
      split at hp
      case isTrue he =>
        subst he
        exact h.connected i hn k hk ((hi k (by omega) (by omega)).mp hp)
      case isFalse => exact h.connected i hn k hk hp }

theorem connect (h : Invariant n ls s) (hr : r < n) (hc : c < r) (hp : s.phase c = .loop r) :
    Invariant n (ls ++ [.connect c r])
      (((s.enqueue r c).store c r (.client c r)).goto c (.loop (r + 1))) := by
  have hi i (he : i = c) : s.index n i = r := by simp [State.index, he, hp, Phase.index]
  have hx i : (((s.enqueue r c).store c r (.client c r)).goto c (.loop (r + 1))).index n i =
      if i = c then r + 1 else s.index n i := by
    simp only [State.index, State.goto_phase]
    split <;> rfl
  have ha i : arrivals (ls ++ [.connect c r]) i = arrivals ls i ++ if i = r then [c] else [] := by
    rw [arrivals_append, arrivals_connect]
    simp only [eq_comm]
  have hm i : min (if i = c then r + 1 else s.index n i) i = min (s.index n i) i := by
    have := hi i
    split <;> omega
  have hl i (hn : i < n) : min (s.index n i) i ≤ (arrivals ls i).length := by
    by_contra hlt
    have ⟨_, hs, _⟩ := h.accepted i hn (arrivals ls i).length (by omega)
    simp at hs
  exact {
    bound     := by
      intro i hn
      rw [hx]
      split
      · omega
      · exact h.bound i hn
    arrived   := by
      intro i hn k hk
      have := hi k
      rw [ha, List.mem_append, h.arrived i hn k hk, hx]
      split <;> split <;> simp <;> omega
    clients   := by
      intro i hn k hk
      rw [ha, List.mem_append] at hk
      cases hk
      case inl hk => exact h.clients i hn k hk
      case inr hk =>
        split at hk <;> simp at hk
        omega
    nodup     := by
      intro i hn
      rw [ha]
      split
      case isTrue he =>
        subst he
        have hnot : c ∉ arrivals ls i := by
          have := hi c rfl
          rw [h.arrived i hn c (by omega)]
          omega
        exact List.Nodup.append (h.nodup i hn) (List.nodup_singleton c) (by simpa using hnot)
      case isFalse => simpa using h.nodup i hn
    queue     := by
      intro i hn
      rw [hx, hm, ha, List.drop_append_of_le_length (hl i hn), ← h.queue i hn]
      exact State.enqueue_queue
    accepted  := by
      intro i hn k hk
      rw [hx, hm] at hk
      have ⟨d, hd, ht⟩ := h.accepted i hn k hk
      have hk' := hl i hn
      refine ⟨d, ?_, ?_⟩
      · rw [ha, List.getElem?_append_left (by omega), hd]
      · rw [State.goto_table, State.store_table, if_neg (by omega)]
        exact ht
    connected := by
      intro i hn k hk hp
      have := hi i
      rw [hx] at hp
      rw [State.goto_table, State.store_table]
      split
      case isTrue he => rw [he.left, he.right]
      case isFalse =>
        refine h.connected i hn k hk ?_
        split at hp <;> omega }

theorem accept (h : Invariant n ls s) (hr : r < n) (hi : i < r) (hp : s.phase r = .loop i)
    (hq : s.queue r = c :: cs) :
    Invariant n (ls ++ [.accept r])
      (((s.dequeue r).store r i (.server c r)).goto r (.loop (i + 1))) := by
  have hi' k (he : k = r) : s.index n k = i := by simp [State.index, he, hp, Phase.index]
  have hx k : (((s.dequeue r).store r i (.server c r)).goto r (.loop (i + 1))).index n k =
      if k = r then i + 1 else s.index n k := by
    simp only [State.index, State.goto_phase]
    split <;> rfl
  have ha k : arrivals (ls ++ [.accept r]) k = arrivals ls k := by
    rw [arrivals_append]
    simp [arrivals]
  have hd : (arrivals ls r).drop i = c :: cs := by
    have := h.queue r hr
    rwa [hi' r rfl, hq, Nat.min_eq_left (by omega), eq_comm] at this
  exact {
    bound     := by
      intro k hk
      rw [hx]
      split
      · omega
      · exact h.bound k hk
    arrived   := by
      intro k hk d hd
      have := hi' d
      rw [ha, h.arrived k hk d hd, hx]
      split <;> omega
    clients   := fun k hk => ha k ▸ h.clients k hk
    nodup     := fun k hk => ha k ▸ h.nodup k hk
    queue     := by
      intro k hk
      rw [ha, hx, State.goto_queue, State.store_queue, State.dequeue_queue]
      split
      case isTrue he =>
        subst he
        rw [hq, Nat.min_eq_left (by omega), ← List.drop_drop, hd]
        rfl
      case isFalse => exact h.queue k hk
    accepted  := by
      intro k hk j hj
      have := hi' k
      rw [hx] at hj
      rw [ha, State.goto_table, State.store_table]
      split
      case isTrue he =>
        refine ⟨c, ?_, by rw [he.left]⟩
        rw [he.left, he.right, ← List.head?_drop, hd, List.head?_cons]
      case isFalse =>
        refine h.accepted k hk j ?_
        split at hj <;> omega
    connected := by
      intro k hk j hj hp
      have := hi' k
      rw [hx] at hp
      rw [State.goto_table, State.store_table, if_neg (by split at hp <;> omega)]
      refine h.connected k hk j hj ?_
      split at hp <;> omega }

theorem step (h : Invariant n ls s) (hs : step n s l = some s') : Invariant n (ls ++ [l]) s' := by
  cases Moves.of_step hs with
  | listen _ hp        =>
    exact h.goto (by simp [arrivals]) (by simp [Phase.index]) (by simp [State.index, hp, Phase.index])
  | skip hr hp         =>
    refine h.goto (by simp [arrivals]) ?_ ?_
    · simp only [Phase.index]
      omega
    · simp only [State.index, hp, Phase.index]
      omega
  | connect hr hc hp _ => exact h.connect hr hc hp
  | accept hr hi hp hq => exact h.accept hr hi hp hq
  | leave _ hp         =>
    exact h.goto (by simp [arrivals]) (by simp [Phase.index]) (by simp [State.index, hp, Phase.index])

theorem reaches (h : Reaches n ls s) : Invariant n ls s := by
  induction h
  case start         => exact start
  case step _ hs hi  => exact hi.step hs

-- A rank to which as many clients have connected as there are lower ranks.
theorem arrivals_perm (h : Invariant n ls s) (hr : r < n) (hl : r ≤ (arrivals ls r).length) :
    (arrivals ls r).Perm (List.range r) := by
  have hs : arrivals ls r ⊆ List.range r := fun c hc =>
    List.mem_range.mpr ((h.arrived r hr c (h.clients r hr c hc)).mp hc).left
  exact (List.subperm_of_subset (h.nodup r hr) hs).perm_of_length_le (by simpa using hl)

theorem le_arrivals (h : Invariant n ls s) (hr : r < n) (hi : r ≤ s.index n r) :
    r ≤ (arrivals ls r).length := by
  by_contra hlt
  have ⟨_, hs, _⟩ := h.accepted r hr (arrivals ls r).length (by omega)
  simp at hs

theorem not_stuck (h : Invariant n ls s) (hs : ∀ l, Mesh.step n s l = none) : s.Done n := by
  intro r hr
  induction r using Nat.strongRecOn
  case ind r hi =>
  cases hp : s.phase r
  case left => rfl
  case starting =>
    have := hs (.listen r)
    simp [Mesh.step, hr, hp] at this
  case loop i =>
    have hx : s.index n r = i := by simp [State.index, hp, Phase.index]
    have hb := h.bound r hr
    rcases Nat.lt_trichotomy i r with hlt | he | hlt
    · -- All lower ranks have left the loop, so that there is a connection to accept.
      have hall : List.range r ⊆ arrivals ls r := fun c hc => by
        have hc := List.mem_range.mp hc
        have hl := hi c hc (by omega)
        rw [h.arrived r hr c (by omega)]
        simp [State.index, hl, Phase.index, hc, hr]
      have hl := (List.subperm_of_subset List.nodup_range hall).length_le
      have hq := h.queue r hr
      cases hd : s.queue r with
      | nil =>
        rw [hd, eq_comm, List.drop_eq_nil_iff] at hq
        simp only [List.length_range] at hl
        omega
      | cons c cs =>
        have := hs (.accept r)
        simp [Mesh.step, hp, hd, hr, hlt] at this
    · have := hs (.skip r)
      simp [Mesh.step, hr, hp, he] at this
    · by_cases hn : i = n
      case pos =>
        have := hs (.leave r)
        simp [Mesh.step, hr, hp, hn] at this
      case neg =>
        cases hq : s.phase i
        case starting =>
          have := hs (.listen i)
          simp [Mesh.step, hq] at this
          omega
        case loop =>
          have := hs (.connect r i)
          simp [Mesh.step, hp, hq, Phase.Listening, hlt] at this
          omega
        case left =>
          -- Rank `i` has accepted a connection from every lower rank, and so from `r`.
          have hin : i < n := by omega
          have hii : s.index n i = n := by simp [State.index, hq, Phase.index]
          have hm := (h.arrivals_perm hin (h.le_arrivals hin (by omega))).mem_iff (a := r)
          rw [List.mem_range, h.arrived i hin r hr] at hm
          omega

theorem paired_iff (h : Invariant n ls s) (hd : s.Done n) :
    s.Paired n ↔ ∀ r < n, (arrivals ls r).Pairwise (· < ·) := by
  have hx r (hr : r < n) : s.index n r = n := by simp [State.index, hd r hr, Phase.index]
  have hp r (hr : r < n) := h.arrivals_perm hr (h.le_arrivals hr (by rw [hx r hr]; omega))
  have hc i (hi : i < n) r (hr : r < n) (hlt : i < r) : s.table i r = some (.client i r) :=
    h.connected i hi r hlt (by rw [hx i hi]; exact hr)
  have ha r (hr : r < n) i (hlt : i < r) :
      ∃ c, (arrivals ls r)[i]? = some c ∧ s.table r i = some (.server c r) :=
    h.accepted r hr i (by rw [hx r hr]; omega)
  constructor
  case mp =>
    intro hs r hr
    have he : arrivals ls r = List.range r := by
      apply List.ext_getElem? fun i => ?_
      by_cases hlt : i < r
      case pos =>
        have ⟨c, hg, ht⟩ := ha r hr i hlt
        have ⟨e, he, ho⟩ := hs r hr i (by omega) (by omega)
        obtain rfl : End.server c r = e := by simpa [ht] using he
        have hci : c = i := by
          rw [hc i (by omega) r hr hlt] at ho
          simpa [End.other, eq_comm] using ho
        rw [hg, hci, List.getElem?_range hlt]
      case neg =>
        have := (hp r hr).length_eq
        rw [List.getElem?_eq_none (by simp_all), List.getElem?_eq_none (by simp_all)]
    exact he ▸ List.pairwise_lt_range
  case mpr =>
    intro hs
    have he r (hr : r < n) : arrivals ls r = List.range r :=
      (hp r hr).eq_of_pairwise (fun _ _ _ _ _ _ => by omega) (hs r hr) List.pairwise_lt_range
    have ht r (hr : r < n) i (hlt : i < r) : s.table r i = some (.server i r) := by
      have ⟨c, hg, ht⟩ := ha r hr i hlt
      rw [he r hr, List.getElem?_range hlt, Option.some.injEq] at hg
      rw [ht, hg]
    intro r hr i hi hne
    rcases Nat.lt_or_gt_of_ne hne with hlt | hlt
    · exact ⟨_, hc r hr i hi hlt, ht i hi r hlt⟩
    · exact ⟨_, ht r hr i hlt, hc i hi r hr hlt⟩

end Invariant

-- A rank stores connections to other ranks only.
theorem Reaches.peer (h : Reaches n ls s) (ht : s.table r i = some e) : i < n ∧ i ≠ r := by
  induction h with
  | start => contradiction
  | @step _ s l _ _ hs hi =>
    have hstore {k j : Nat} {e' : End} {s' : State} (hs' : s'.table = s.table) (hj : j < n ∧ j ≠ k)
        (ht : (s'.store k j e').table r i = some e) : i < n ∧ i ≠ r := by
      rw [State.store_table, hs'] at ht
      split at ht
      case isTrue he  => omega
      case isFalse he => exact hi ht
    cases Moves.of_step hs with
    | connect hr hc _ _ => exact hstore (State.enqueue_table (s := s)) (by omega) ht
    | accept hr hj _ _  => exact hstore (State.dequeue_table (s := s)) (by omega) ht
    | _                 => exact hi ht

-- When it has left the loop, it has a connection to every other rank.
theorem Reaches.filled_iff (h : Reaches n ls s) (hd : s.Done n) (hr : r < n) :
    (∃ e, s.table r i = some e) ↔ i < n ∧ i ≠ r := by
  refine ⟨fun ⟨_, ht⟩ => h.peer ht, fun ⟨hi, hne⟩ => ?_⟩
  have hx : s.index n r = n := by simp [State.index, hd r hr, Phase.index]
  rcases Nat.lt_or_gt_of_ne hne with hlt | hlt
  · have ⟨_, _, ht⟩ := (Invariant.reaches h).accepted r hr i (by omega)
    exact ⟨_, ht⟩
  · exact ⟨_, (Invariant.reaches h).connected r hr i hlt (by omega)⟩

-- The loop is never stuck. When all ranks have left it, they agree on the ends of their connections
-- exactly when the lower ranks connected to each rank in ascending order.
theorem mesh_paired_iff (h : Reaches n ls s) :
    (¬s.Done n → ∃ l s', step n s l = some s') ∧
    (s.Done n → (s.Paired n ↔ ∀ r < n, (arrivals ls r).Pairwise (· < ·))) := by
  have hi := Invariant.reaches h
  refine ⟨fun hd => ?_, hi.paired_iff⟩
  by_contra hs
  push Not at hs
  exact hd <| hi.not_stuck fun l => Option.eq_none_iff_forall_ne_some.mpr (hs l)

def ascending : List Label := [
  .listen 0, .listen 1, .listen 2, .skip 0, .connect 0 1, .accept 1, .skip 1, .connect 0 2,
  .connect 1 2, .accept 2, .accept 2, .skip 2, .leave 0, .leave 1, .leave 2]

theorem mesh_paired_three : ((run 3 ascending).get (by decide)).Paired 3 :=
  ((mesh_paired_iff (.of_run (Option.some_get _).symm)).right (by decide)).mpr (by decide)

-- Rank 1 connects to rank 2 ahead of rank 0.
def crossed : List Label := [
  .listen 0, .listen 1, .listen 2, .skip 0, .connect 0 1, .accept 1, .skip 1, .connect 1 2,
  .connect 0 2, .accept 2, .accept 2, .skip 2, .leave 0, .leave 1, .leave 2]

theorem mesh_crossed_three : ∃ s, Reaches 3 crossed s ∧ s.Done 3 ∧ ¬s.Paired 3 := by
  refine ⟨(run 3 crossed).get (by decide), .of_run (Option.some_get _).symm, by decide, fun h => ?_⟩
  have ht : ((run 3 crossed).get (by decide)).table 2 0 = some (.server 1 2) := by decide
  have hc : ((run 3 crossed).get (by decide)).table 0 2 = some (.client 0 2) := by decide
  have ⟨e, he, ho⟩ := h 2 (by decide) 0 (by decide) (by decide)
  rw [ht, Option.some.injEq] at he
  rw [hc, ← he] at ho
  exact absurd ho (by decide)

end Mesh
