import XdpCollectives.Mpi.Medium
import XdpCollectives.Process.Simulation
import XdpCollectives.Script.Count

-- The events of a rank, from the actions that it has done.
namespace Mpi

open Memory Wire Process Script

-- The calls in the actions of a rank.
def opening : Process.Act Note → Option Nat
  | .note (.enter i) => some i
  | _                => none

def closing : Process.Act Note → Option Nat
  | .note (.leave i ..) => some i
  | _                   => none

variable {μ : Medium} {r : Nat} {es : List (Event Note)} {t : List (Process.Act Note)}

theorem opens_eq {a : Event Note} {b : Process.Act Note} (h : Matches μ r a b) : opens a = opening b := by
  cases h
  case note e => cases e <;> rfl
  all_goals rfl

theorem during_matches (h : List.Forall₂ (Matches μ r) es t) (i : Nat) :
    List.Forall₂ (Matches μ r) (during opens i es) (during opening i t) :=
  during_forall₂ (fun _ _ hm => opens_eq hm) h i

theorem since_matches (h : List.Forall₂ (Matches μ r) es t) (i : Nat) :
    List.Forall₂ (Matches μ r) (since opens i es) (since opening i t) :=
  since_forall₂ (fun _ _ hm => opens_eq hm) h i

theorem getLast?_matches (h : List.Forall₂ (Matches μ r) es t) :
    es.getLast? = some (.note e) ↔ t.getLast? = some (.note e) := by
  have h := List.forall₂_reverse_iff.mpr h
  rw [List.getLast?_eq_head?_reverse, List.getLast?_eq_head?_reverse]
  generalize es.reverse = es' at h
  generalize t.reverse = t' at h
  cases h with
  | nil       => simp
  | cons he _ => cases he <;> simp

theorem sentTo_eq (h : List.Forall₂ (Matches μ r) es t) (q : Nat) : sentTo q es = t.flatMap (Act.puts (.tcp r q)) := by
  induction h
  case nil => rfl
  case cons he _ hi =>
    simp only [sentTo, List.filterMap_cons, List.flatMap_cons] at hi ⊢
    rw [hi]
    cases he with
    | sendto => rw [Act.puts, Sim.outsOn_tcp, List.nil_append]
    | send   =>
      rw [Act.puts_single]
      split <;> split <;> simp_all
    | _      => rfl

theorem recvFrom_eq (h : List.Forall₂ (Matches μ r) es t) (p : Nat) :
    recvFrom p es = t.flatMap (Act.gets (.tcp p r)) := by
  induction h
  case nil => rfl
  case cons he _ hi =>
    simp only [recvFrom, List.filterMap_cons, List.flatMap_cons] at hi ⊢
    rw [hi]
    cases he with
    | recv =>
      rw [Act.gets]
      split <;> split <;> simp_all
    | took => rw [Act.gets, if_neg (by simp), List.nil_append]
    | _    => rfl

theorem taken_eq (h : List.Forall₂ (Matches μ r) es t) :
    taken es = (t.flatMap (Act.gets (.udp r))).map (μ.copy r) := by
  induction h
  case nil => rfl
  case cons he _ hi =>
    simp only [taken, List.filterMap_cons, List.flatMap_cons, List.map_append] at hi ⊢
    rw [hi]
    cases he with
    | took => simp [Act.gets]
    | recv => simp [Act.gets]
    | _    => rfl

-- Datagrams that go to several ranks.
theorem emitted_eq {l : List Nat} (hl : l ≠ []) {ds : List Bytes} (h : List.Forall₂ (Matches μ r) es
      (ds.map (fun d => .put (l.map fun q => (.udp q, d))) ++ [.note e])) : emitted es = ds := by
  induction ds generalizing es
  case nil =>
    cases h with | cons he h =>
    cases h
    cases he
    rfl
  case cons d ds hi =>
    obtain ⟨q, l', rfl⟩ := List.exists_cons_of_ne_nil hl
    rw [List.map_cons, List.cons_append] at h
    generalize ha : (.put ((q :: l').map fun q => (.udp q, d)) : Process.Act Note) = a at h
    cases h with | cons he h =>
    cases he with
    | @sendto dest d' =>
      simp only [List.map_cons, Act.put.injEq, Medium.outs] at ha
      generalize μ.reach r dest d' = qs at ha
      cases qs with
      | nil => contradiction
      | cons q' qs =>
        simp only [List.map_cons, List.cons.injEq, Prod.mk.injEq] at ha
        rw [emitted, List.filterMap_cons, ← emitted, hi h, ha.left.right]
    | send => simp at ha
    | _    => contradiction

theorem note_mem_iff (h : List.Forall₂ (Matches μ r) es t) : .note e ∈ es ↔ .note e ∈ t := by
  induction h
  case nil => simp
  case cons he _ hi =>
    rw [List.mem_cons, List.mem_cons, hi]
    cases he <;> simp

theorem send_mem_iff (h : List.Forall₂ (Matches μ r) es t) : .send q m ∈ es ↔ .put [(.tcp r q, m)] ∈ t := by
  induction h
  case nil => simp
  case cons he _ hi =>
    rw [List.mem_cons, List.mem_cons, hi]
    cases he with
    | @sendto dest d =>
      have hne : [(Chan.tcp r q, m)] ≠ μ.outs r dest d := by
        intro he
        have hm : (Chan.tcp r q, m) ∈ μ.outs r dest d := he ▸ List.mem_singleton_self _
        simp [Medium.outs] at hm
      simp [hne]
    | _ => simp

theorem recv_mem_iff (h : List.Forall₂ (Matches μ r) es t) : .recv q m ∈ es ↔ .get (.tcp q r) m ∈ t := by
  induction h
  case nil => simp
  case cons he _ hi =>
    rw [List.mem_cons, List.mem_cons, hi]
    cases he <;> simp

-- The calls that an action begins or ends.
def enters (a : Process.Act Note) : Nat := if (opening a).isSome then 1 else 0
def leaves (a : Process.Act Note) : Nat := if (closing a).isSome then 1 else 0

theorem returns_eq (h : List.Forall₂ (Matches μ r) es t) : returns es = total leaves t := by
  induction h
  case nil => rfl
  case cons he _ hi =>
    rw [returns] at hi
    rw [returns, List.countP_cons, hi, total_cons, Nat.add_comm]
    congr 1
    cases he
    case note e => cases e <;> rfl
    all_goals rfl

theorem entries_eq (h : List.Forall₂ (Matches μ r) es t) : entries es = total enters t := by
  induction h
  case nil => rfl
  case cons he _ hi =>
    rw [entries] at hi
    rw [entries, List.countP_cons, hi, total_cons, Nat.add_comm]
    congr 1
    cases he
    case note e => cases e <;> rfl
    all_goals rfl

end Mpi
