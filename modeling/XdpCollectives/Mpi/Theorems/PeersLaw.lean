import XdpCollectives.Mpi.Theorems.Peers
import XdpCollectives.Mpi.Theorems.Rounds

-- Which collectives never use the slot of the rank that calls them.
namespace Mpi

open Memory Wire Process

-- A network in which no datagram gets lost. The programs in the kernel may give one of a broadcast to any
-- ranks, but one that is sent from rank to rank arrives where it should.
structure LossFree (μ : Medium) : Prop where
  kept    : μ.mayDrop = false
  patient : ∀ r, μ.mayTimeout r = false
  same    : ∀ r d, SameMessage (μ.copy r d) d
  single  : ∀ src dest d r, (Header.decode d).collective.toNat = MPICollective.send.code → r ∈ μ.reach src dest d →
    r = dest

theorem lossless_lossFree (n : Nat) (f : Forwarder) : LossFree (lossless n f) where
  kept      := rfl
  patient _ := rfl
  same      := f.same
  single src dest d r hd hr := by
    have ⟨hr, _⟩ := List.mem_filter.mp hr
    rw [recipients, hd] at hr
    exact List.mem_singleton.mp hr

-- Every index that a rank has used is a rank other than its own.
def Peered (n : Nat) (s : Net Mark) : Prop :=
  ∀ r i, (r, .note (.slot i)) ∈ s.trace → Peer n r i

-- Whatever the ranks broadcast, and in whatever order they take their steps.
def UsesPeers (c : Collective) (n root : Nat) : Prop :=
  ∀ (P : Nat → ProcessInfo) (bufs : Nat → Mem) (count : Int) (datatype : MPIDatatype) (μ : Medium) (s : Net Mark),
    Ranked n P → LossFree μ → (c.marked count datatype root n P bufs).Reaches μ s → Peered n s

-- The smallest number of ranks with which a collective works.
def Collective.fewest : Collective → Nat
  | bcast | bcastLinear => 1
  | bcastXdp            => 3
  | _                   => 2

variable {n root : Nat} {μ : Medium}

variable (n root) in
theorem bcast_compatible (h : LossFree μ) (length : Int) :
    Compatible μ (bcastContract n root length) fun _ _ => Packed mpiHeader Ack where
  patient              := h.patient
  empty _ _            := .nil
  sent _ _ _ _ hb hm   := hb.append hm.left hm.right
  got _ _ _ _ hb hne hl := by
    cases hl
    have ⟨hlen, hm, hb⟩ := hb.take hne
    exact ⟨⟨hlen, hm⟩, hb⟩
  took p q dest d := by
    rintro ⟨hl, rt, hrt, hdec, hor⟩ hq
    have hsame := h.same q d
    refine ⟨hsame.left ▸ hl, rt, hrt, hsame.decode.left ▸ hdec, ?_⟩
    rcases hor with hr | ⟨rfl, hne, hc⟩
    · exact .inl hr
    · exact .inr (h.single _ dest d q hc hq ▸ hne.symm)

variable (n) in
theorem barrier_compatible (h : LossFree μ) : Compatible μ (barrierContract n) fun _ _ _ => True where
  patient             := h.patient
  empty _ _           := trivial
  sent _ _ _ _ _ _    := trivial
  got _ _ _ _ _ _ _   := ⟨trivial, trivial⟩
  took _ _ _ _ _ _    := trivial

section Safe

variable {c : Collective} {P : Nat → ProcessInfo} {bufs : Nat → Mem} {count : Int} {datatype : MPIDatatype}

theorem peered_of_obeys {C : Nat → Contract Mark} {stream : Nat → Nat → Bytes → Prop} (hc : Compatible μ C stream)
    (hnote : ∀ q i, (C q).note (.slot i) → Peer n q i)
    (h : ∀ r < n, (c.perform (P r) (bufs r) count datatype root).Obeys (C r) fun _ => True)
    (hs : (c.marked count datatype root n P bufs).Reaches μ s) : Peered n s := by
  have hstart : Kept C stream (c.marked count datatype root n P bufs) := by
    refine .start hc fun r => ?_
    exact .ite (h r) fun _ => trivial
  exact fun r i hi => hnote r i ((hstart.reaches hc hs).notes r _ hi)

theorem perform_obeys (hc : c ≠ .barrierRing) (hn : c.fewest ≤ n) (hint : n < 2 ^ 31) (hr : root < n) (hq : q < n)
    (hp : Seated n q p) (buf : Mem) : (c.perform p buf count datatype root).Obeys
      (bcastContract n root (datagramLength count datatype) q) fun _ => True := by
  cases c with
  | barrierRing       => contradiction
  | bcast             => exact (Slots.mpiBcast_obeys hint hr hq hp buf count).bind fun _ _ => trivial
  | bcastRing         => exact (Slots.mpiBcastRing_obeys hint hq hp buf count hn).bind fun _ _ => trivial
  | bcastLinear       => exact (Slots.mpiBcastLinear_obeys hint hr hq hp buf count).bind fun _ _ => trivial
  | bcastRingXdp      => exact (Slots.bcastXdp_obeys hint hr hq hp buf count hn _ _).bind fun _ _ => trivial
  | bcastLinearXdp    => exact (Slots.bcastXdp_obeys hint hr hq hp buf count hn _ _).bind fun _ _ => trivial
  | bcastRingXdpEager => exact (Slots.mpiBcastRingXdpEager_obeys hint hr hq hp buf count hn).bind fun _ _ => trivial
  | bcastXdp          => exact (Slots.mpiBcastXdp_obeys hint hr hp buf count hn).bind fun _ _ => trivial

theorem usesPeers_of_fewest (hn : c.fewest ≤ n) (hint : n < 2 ^ 31) (hr : root < n) : UsesPeers c n root := by
  intro P bufs count datatype μ s hP hμ hs
  by_cases hc : c = .barrierRing
  case pos =>
    subst hc
    refine peered_of_obeys (barrier_compatible n hμ) (fun q i h => h i rfl) (fun r hr => ?_) hs
    exact (Slots.mpiBarrierRing_obeys hn hr (hP r hr)).bind fun _ _ => trivial
  case neg =>
    refine peered_of_obeys (bcast_compatible n root hμ (datagramLength count datatype)) (fun q i h => h i rfl) ?_ hs
    exact fun r hq => perform_obeys hc hn hint hr hq (hP r hq) (bufs r)

end Safe

-- `n` ranks that broadcast one character.
def few (c : Collective) (n root : Nat) : Net Mark :=
  c.marked 1 .char root n (fun r => .init n r fun _ => 0) fun _ _ => 65

theorem not_usesPeers_of_run {c : Collective} {s : Net Mark} (hs : (few c n root).Reaches (lossless n .id) s)
    (h : (r, .note (.slot r)) ∈ s.trace) : ¬UsesPeers c n root := by
  intro hu
  have hp := hu _ _ _ _ _ _ (fun _ _ => ⟨rfl, rfl⟩) (lossless_lossFree n .id) hs r r h
  exact hp.right.right rfl

-- A single rank uses its own slot in its first step, if there is one.
theorem alone_own {c : Collective} (hc : 1 < c.fewest) : ∃ k, (few c 1 0).prog 0 = .note (.slot 0) k := by
  cases c
  case bcast       => exact absurd hc (by decide)
  case bcastLinear => exact absurd hc (by decide)
  all_goals exact ⟨_, rfl⟩

theorem not_usesPeers_alone {c : Collective} (hc : 1 < c.fewest) : ¬UsesPeers c 1 0 := by
  have ⟨k, hk⟩ := alone_own hc
  have hs : (few c 1 0).step (lossless 1 .id) (.run 0) = some ((few c 1 0).advance 0 k (.note (.slot 0))) := by
    rw [Net.step, hk]
  exact not_usesPeers_of_run (.single ⟨.run 0, hs⟩) (List.mem_append_right _ List.mem_cons_self)

-- The second child of rank 0 of two is rank 0.
theorem not_usesPeers_pair : ¬UsesPeers .bcastXdp 2 0 := by
  have hs : [Net.Label.run 0, .run 0, .run 0, .run 0].foldlM (Net.step (lossless 2 .id)) (few .bcastXdp 2 0) = some _ := rfl
  exact not_usesPeers_of_run (Net.reaches_of_steps hs) (List.mem_append_right _ List.mem_cons_self)

theorem not_usesPeers_pair_one : ¬UsesPeers .bcastXdp 2 1 := by
  have hs : [Net.Label.run 1, .run 1, .run 1, .take 0 0, .run 0, .run 0, .run 0, .run 0, .run 0].foldlM
    (Net.step (lossless 2 .id)) (few .bcastXdp 2 1) = some _ := rfl
  exact not_usesPeers_of_run (Net.reaches_of_steps hs) (List.mem_append_right _ List.mem_cons_self)

theorem fewest_of_usesPeers {c : Collective} (hr : root < n) (h : UsesPeers c n root) : c.fewest ≤ n := by
  by_contra hn
  by_cases h1 : n = 1
  case pos =>
    obtain rfl : root = 0 := by omega
    subst h1
    exact not_usesPeers_alone (by omega) h
  case neg =>
    have ⟨hc, h2⟩ : c = .bcastXdp ∧ n = 2 := by
      cases c <;> simp only [Collective.fewest] at hn
      case bcastXdp => exact ⟨rfl, by omega⟩
      all_goals omega
    subst hc h2
    obtain rfl | rfl : root = 0 ∨ root = 1 := by omega
    · exact not_usesPeers_pair h
    · exact not_usesPeers_pair_one h

-- Ranks are of type `int`.
theorem usesPeers_iff {c : Collective} (hint : n < 2 ^ 31) (hr : root < n) : UsesPeers c n root ↔ c.fewest ≤ n :=
  ⟨fewest_of_usesPeers hr, fun hn => usesPeers_of_fewest hn hint hr⟩

theorem usesPeers_iff_three : UsesPeers .bcastXdp 3 1 ↔ Collective.fewest .bcastXdp ≤ 3 :=
  usesPeers_iff (by decide) (by decide)

-- The default number of processes is 1.
theorem not_usesPeers : ¬∀ (c : Collective) (n root : Nat), 1 ≤ n → n < 2 ^ 31 → root < n → UsesPeers c n root :=
  fun h => not_usesPeers_alone (by decide) (h .barrierRing 1 0 (by decide) (by decide) (by decide))

end Mpi
