import XdpCollectives.Mpi.Medium
import XdpCollectives.Process.Simulation
import XdpCollectives.Script.Count

-- One rank hands a message to another one, which acknowledges it.
namespace Mpi

open Memory Wire Process Script

-- What a sender does that waits for an acknowledgement.
def dispatch (p q : Nat) (ds : List Bytes) (ack : Bytes) : List (Process.Act Note) :=
  ds.map (fun d => .put [(.udp q, d)]) ++ [.get (.tcp q p) ack]

-- What a receiver does with the datagrams of a message.
def receipt (p q : Nat) (ds : List Bytes) (buf : Mem) (acks : List Bytes) : List (Process.Act Note) :=
  ds.map (fun d => .get (.udp q) d) ++
    (.note (.stored buf) :: acks.map fun a => .put [(.tcp q p, a)])

-- Rank `q` has the datagrams. Rank `p` waits for one acknowledgement, although `acks` may follow.
def serve (p q : Nat) (ds : List Bytes) (buf : Mem) (ack : Bytes) (acks : List Bytes) :
    List (Nat × Process.Act Note) :=
  tag q (receipt p q ds buf (ack :: acks)) ++ tag p [.get (.tcp q p) ack]

def hop (p q : Nat) (ds : List Bytes) (buf : Mem) (ack : Bytes) (acks : List Bytes) :
    List (Nat × Process.Act Note) :=
  tag p (ds.map fun d => .put [(.udp q, d)]) ++ serve p q ds buf ack acks

variable {p q r : Nat} {ds acks : List Bytes} {buf : Mem} {ack : Bytes} {qs : Queues Chan Bytes}

theorem proj_serve_sender (h : p ≠ q) : proj p (serve p q ds buf ack acks) = [.get (.tcp q p) ack] := by
  simp [serve, proj_append, proj_tag, h.symm]

theorem proj_serve_receiver (h : p ≠ q) :
    proj q (serve p q ds buf ack acks) = receipt p q ds buf (ack :: acks) := by
  simp [serve, proj_append, proj_tag, h]

theorem proj_serve_other (hp : p ≠ r) (hq : q ≠ r) : proj r (serve p q ds buf ack acks) = [] := by
  simp [serve, proj_append, proj_tag, hp, hq]

theorem proj_hop_sender (h : p ≠ q) :
    proj p (hop p q ds buf ack acks) = dispatch p q ds ack := by
  rw [hop, proj_append, proj_tag, if_pos rfl, proj_serve_sender h, dispatch]

theorem proj_hop_receiver (h : p ≠ q) :
    proj q (hop p q ds buf ack acks) = receipt p q ds buf (ack :: acks) := by
  rw [hop, proj_append, proj_tag, if_neg h, proj_serve_receiver h, List.nil_append]

theorem proj_hop_other (hp : p ≠ r) (hq : q ≠ r) : proj r (hop p q ds buf ack acks) = [] := by
  rw [hop, proj_append, proj_tag, if_neg hp, proj_serve_other hp hq, List.nil_append]

theorem hop_quiet (h : .note e ∈ proj r (hop p q ds buf ack acks)) : e = .stored buf := by
  rw [hop, serve, proj_append, proj_append, proj_tag, proj_tag, proj_tag] at h
  split at h <;> split at h <;> simp [receipt] at h <;> exact h

variable (ds acks buf ack qs) in
theorem serve_flow (hu : qs (.udp q) = ds) (ht : qs (.tcp q p) = []) :
    Flow qs (serve p q ds buf ack acks)
      (Function.update (Function.update qs (.udp q) []) (.tcp q p) acks) := by
  have h₁ := Flow.gets ds [] (E := Note) q (by simpa using hu)
  have h₂ := Flow.note (Function.update qs (.udp q) []) q (Note.stored buf)
  have h₃ := Flow.puts (E := Note) (Function.update qs (.udp q) []) q (.tcp q p) (ack :: acks)
  have ht' : Function.update qs (.udp q) [] (.tcp q p) = [] := by simp [ht]
  rw [ht', List.nil_append] at h₃
  have h₄ := Flow.gets [ack] acks (E := Note) (c := .tcp q p)
    (q := Function.update (Function.update qs (.udp q) []) (.tcp q p) (ack :: acks)) p (by simp)
  rw [Function.update_idem] at h₄
  have h := h₁.append (h₂.append (h₃.append h₄))
  simpa only [serve, receipt, tag, List.map_append, List.map_cons, List.map_nil, List.append_assoc,
    List.cons_append, List.nil_append] using h

variable (ds acks buf ack) in
theorem hop_flow (hu : qs (.udp q) = []) (ht : qs (.tcp q p) = []) :
    Flow qs (hop p q ds buf ack acks) (Function.update qs (.tcp q p) acks) := by
  have h₁ := Flow.puts (E := Note) qs p (.udp q) ds
  have h₂ := serve_flow ds acks buf ack (Function.update qs (.udp q) (qs (.udp q) ++ ds)) (p := p) (q := q)
    (by simp [hu]) (by simp [ht])
  have hq : Function.update (Function.update qs (.udp q) (qs (.udp q) ++ ds)) (.udp q) [] = qs := by
    rw [Function.update_idem, ← hu, Function.update_eq_self]
  rw [hq] at h₂
  exact h₁.append h₂

-- A hop with a single acknowledgement leaves nothing behind.
theorem hop_drains (hu : qs (.udp q) = []) (ht : qs (.tcp q p) = []) :
    Flow qs (hop p q ds buf ack []) qs := by
  have h := hop_flow ds [] buf ack hu ht
  have hq : Function.update qs (.tcp q p) [] = qs := by rw [← ht, Function.update_eq_self]
  rwa [hq] at h

theorem outsOn_scatter {l : List Nat} (hl : l.Nodup) (c : Chan) (d : Bytes) :
    outsOn c (l.map fun r => (Chan.udp r, d)) = if c ∈ l.map Chan.udp then [d] else [] := by
  induction l
  case nil => rfl
  case cons r l hi =>
    have ⟨hr, hl⟩ := List.nodup_cons.mp hl
    have := hi hl
    simp only [outsOn, List.map_cons, List.filterMap_cons, List.mem_cons] at this ⊢
    by_cases hc : Chan.udp r = c
    case pos =>
      subst hc
      have hn : Chan.udp r ∉ l.map Chan.udp := by simpa using hr
      simp [hn] at this ⊢
      exact this
    case neg => simpa [hc, Ne.symm hc] using this

-- A rank sends datagrams that are forwarded to all ranks of a list.
theorem scatter_flow {l : List Nat} (hl : l.Nodup) (qs : Queues Chan Bytes) (p : Nat) (ds : List Bytes) :
    Flow qs (tag p (ds.map fun d => (.put (l.map fun r => (.udp r, d)) : Process.Act Note)))
      fun c => qs c ++ if c ∈ l.map Chan.udp then ds else [] := by
  induction ds generalizing qs
  case nil =>
    show qs = _
    simp
  case cons d ds hi =>
    refine ⟨trivial, ?_⟩
    have h := hi (Act.effect (E := Note) (.put (l.map fun r => (.udp r, d))) qs)
    have hq : (fun c => Act.effect (E := Note) (.put (l.map fun r => (.udp r, d))) qs c ++
        if c ∈ l.map Chan.udp then ds else []) = fun c => qs c ++ if c ∈ l.map Chan.udp then d :: ds else [] := by
      funext c
      simp only [Act.effect, outsOn_scatter hl]
      split <;> simp
    rw [hq] at h
    exact h

-- Who writes and reads the channels, when the datagrams for rank `q` come from rank `source q`.
def wiring (source : Nat → Nat) : Wiring Chan where
  writer
    | .tcp p _ => p
    | .udp q   => source q
  reader
    | .tcp _ q => q
    | .udp q   => q

-- Messages over connections that consist of a header only: the acknowledgements.
def isHeader (m : Bytes) : Bool :=
  m.length = mpiHeader

-- A flow in which every datagram of the channel of a rank is acknowledged before the next one.
structure Polite (source : Nat → Nat) (g : List (Nat × Process.Act Note)) : Prop where
  owned   : ∀ p, ∀ a ∈ proj p g, a.OwnedBy (wiring source) p
  spends  : ∀ q, Balanced (putting (.udp q) fun _ => true) (getting (.tcp q (source q)) isHeader) 1
    (proj (source q) g)
  answers : ∀ q, Balanced (putting (.tcp q (source q)) isHeader) (getting (.udp q) fun _ => true) 0
    (proj q g)

namespace Polite

variable {source : Nat → Nat} {g g₁ g₂ : List (Nat × Process.Act Note)}

theorem append (h₁ : Polite source g₁) (h₂ : Polite source g₂) : Polite source (g₁ ++ g₂) where
  owned p a ha := by
    rw [proj_append, List.mem_append] at ha
    exact ha.elim (h₁.owned p a) (h₂.owned p a)
  spends q  := proj_append (source q) ▸ (h₁.spends q).append (h₂.spends q)
  answers q := proj_append q ▸ (h₁.answers q).append (h₂.answers q)

theorem nil : Polite source [] where
  owned _ _ ha := absurd ha List.not_mem_nil
  spends _     := ⟨trivial, rfl⟩
  answers _    := ⟨trivial, rfl⟩

theorem flatMap {l : List α} {f : α → List (Nat × Process.Act Note)} (h : ∀ x ∈ l, Polite source (f x)) :
    Polite source (l.flatMap f) := by
  induction l
  case nil => exact nil
  case cons x l hi =>
    exact (h x List.mem_cons_self).append (hi fun y hy => h y (List.mem_cons_of_mem _ hy))

end Polite

theorem hop_polite {source : Nat → Nat} (hne : p ≠ q) (hs : source q = p) (ha : ack.length = mpiHeader) :
    Polite source (hop p q [d] buf ack []) where
  owned r a h := by
    by_cases hp : p = r
    case pos =>
      subst hp
      rw [proj_hop_sender hne] at h
      simp [dispatch] at h
      rcases h with rfl | rfl <;> simp [Act.OwnedBy, wiring, hs]
    case neg =>
      by_cases hq : q = r
      case pos =>
        subst hq
        rw [proj_hop_receiver hne] at h
        simp [receipt] at h
        rcases h with rfl | rfl | rfl <;> simp [Act.OwnedBy, wiring]
      case neg =>
        rw [proj_hop_other hp hq] at h
        contradiction
  spends r := by
    by_cases hr : r = q
    case pos =>
      subst hr
      rw [hs, proj_hop_sender hne]
      constructor <;> simp [dispatch, Within, isHeader, ha]
    case neg =>
      apply Balanced.quiet
      intro a h
      by_cases hp : p = source r
      case pos =>
        rw [← hp, proj_hop_sender hne] at h
        simp [dispatch] at h
        rcases h with rfl | rfl <;> simp [Ne.symm hr]
      case neg =>
        by_cases hq : q = source r
        case pos =>
          rw [← hq, proj_hop_receiver hne] at h
          simp [receipt] at h
          rcases h with rfl | rfl | rfl <;> simp
        case neg =>
          rw [proj_hop_other hp hq] at h
          contradiction
  answers r := by
    by_cases hr : r = q
    case pos =>
      subst hr
      rw [hs, proj_hop_receiver hne]
      constructor <;> simp [Within, receipt, isHeader, ha]
    case neg =>
      apply Balanced.quiet
      intro a h
      by_cases hp : p = r
      case pos =>
        rw [hp, proj_hop_sender (hp ▸ hne)] at h
        simp [dispatch] at h
        rcases h with rfl | rfl <;> simp
      case neg =>
        rw [proj_hop_other hp (Ne.symm hr)] at h
        contradiction

end Mpi
