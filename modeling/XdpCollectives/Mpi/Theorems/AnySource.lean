import XdpCollectives.Mpi.Theorems.Reduce
import XdpCollectives.Process.Traces

-- The root of a reduction receives from any source.
namespace Mpi

open Memory Wire Process

variable {float : Floating} {n root : Nat} {count : Int} {datatype : MPIDatatype} {opcode : MPIOpcode} {a : Arith}
variable {garbage bufs : Nat → Mem} {μ : Medium} {p : ProcessInfo} {buf : Mem}

-- The root has left the call with the elements of all ranks, folded, and has received from every other rank the one
-- message that it has sent.
def Reduced (float : Floating) (datatype : MPIDatatype) (a : Arith) (opcode : MPIOpcode) (n root : Nat) (count : Int)
    (bufs : Nat → Mem) (s : Net Note) : Prop :=
  ∃ b, .note (.leave 0 0 b) ∈ s.events root ∧
    (∃ f : Element datatype → Element datatype → Element datatype, operation? float a opcode = some f ∧
      ∀ j : Nat, j < count → Fold.fold1 f ((List.range n).map fun r => element datatype j (bufs r)) =
        some (element datatype j b)) ∧
    ∀ r < n, r ≠ root → ∃ m, sentTo root (s.events r) = [m] ∧ (recvFrom r (s.events root)).flatten = m

-- No index of the root is outside its tables, and whatever happens it can still finish.
structure Reduces (μ : Medium) (float : Floating) (datatype : MPIDatatype) (a : Arith) (opcode : MPIOpcode)
    (n root : Nat) (count : Int) (garbage bufs : Nat → Mem) : Prop where
  indices  : ∀ s, Net.Reaches μ (reduceNetwork float n garbage bufs count datatype opcode root) s →
    s.prog root ≠ .fault
  finishes : ∀ s, Net.Reaches μ (reduceNetwork float n garbage bufs count datatype opcode root) s →
    ∃ s', Net.Reaches μ s s' ∧ Reduced float datatype a opcode n root count bufs s'

theorem recv_anySource (p : ProcessInfo) (len : Nat) : p.recv anySource len = .fault := by
  rw [ProcessInfo.recv, useSlot_bind, if_pos]
  exact fun h => absurd h.left (by decide)

-- The slot of the source is read as soon as there is anything to receive.
theorem mpiRecvTcp_anySource (p : ProcessInfo) (buf : Mem) (count : Int) (datatype : MPIDatatype) :
    _mpiRecvTcp p buf count datatype anySource = .fault ∨
      _mpiRecvTcp p buf count datatype anySource = pure (-1, buf) := by
  rw [_mpiRecvTcp]
  by_cases h1 : datatypeSizeInBytes count datatype < 1
  case pos => exact .inr (by simp only [h1, if_true])
  case neg =>
    by_cases h2 : i32 (mpiHeader + datatypeSizeInBytes count datatype) < 0
    case pos => exact .inr (by simp only [h1, h2, if_true, if_false])
    case neg =>
      have ht := total_eq (Int.not_lt.mp h1) (Int.not_lt.mp h2)
      obtain ⟨k, hk⟩ : ∃ k, (i32 (mpiHeader + datatypeSizeInBytes count datatype)).toNat = k + 1 :=
        Nat.exists_eq_succ_of_ne_zero (by omega)
      refine .inl ?_
      simp only [h1, h2, if_false, hk, _mpiRecvTcpLoop, recv_anySource, Nat.succ_ne_zero]
      rfl

variable (float count opcode buf) in
theorem mpiReduceRing_root (g : Mem) (hn : 2 ≤ n) (ha : arith? datatype = some a) :
    let p : ProcessInfo := .init n root g
    mpiReduceRing float p buf count datatype opcode root = .fault ∨
      mpiReduceRing float p buf count datatype opcode root = pure (-1, buf, p) := by
  intro p
  have ⟨k, hk⟩ : ∃ k, p.size - 1 = k + 1 := ⟨n - 2, show n - 1 = n - 2 + 1 by omega⟩
  have hp : p.rank = root := rfl
  rw [mpiReduceRing, hk, reduceRounds, ha]
  simp only [hp, ne_eq, not_true_eq_false, if_false, if_true, Option.isNone_some]
  rcases mpiRecvTcp_anySource p p.garbage count datatype with h | h
  · left
    rw [h]
    rfl
  · right
    rw [h]
    rfl

theorem mpiReduceRing_alone (float : Floating) (buf g : Mem) (count : Int) (datatype : MPIDatatype)
    (opcode : MPIOpcode) : mpiReduceRing float (.init 1 0 g) buf count datatype opcode 0 =
      pure (0, buf, countAll (.init 1 0 g)) :=
  rfl

theorem reduceNetwork_prog (h : r < n) : (reduceNetwork float n garbage bufs count datatype opcode root).prog r =
    (mpiReduceRing float (.init n r (garbage r)) (bufs r) count datatype opcode root).bind
      fun x => .takeNote (.leave 0 x.1 x.2.1) :=
  if_pos h

theorem not_reduces (hroot : root < n) (hn : 2 ≤ n) (ha : arith? datatype = some a) :
    ¬Reduces μ float datatype a opcode n root count garbage bufs := by
  intro h
  have hp : (reduceNetwork float n garbage bufs count datatype opcode root).prog root = _ := reduceNetwork_prog hroot
  rcases mpiReduceRing_root float count opcode (bufs root) (garbage root) hn ha with hr | hr
  · rw [hr] at hp
    exact h.indices _ .refl hp
  · rw [hr] at hp
    have ⟨s, hs, b, hb, _⟩ := h.finishes _ .refl
    have hd : Does ((reduceNetwork float n garbage bufs count datatype opcode root).prog root) (s.events root) _ :=
      Net.does hs root
    rw [hp] at hd
    rcases hd.of_takeNote with ⟨he, _⟩ | ⟨he, _⟩ <;> simp [he] at hb

theorem reduces_alone {f : Element datatype → Element datatype → Element datatype}
    (ho : operation? float a opcode = some f) : Reduces μ float datatype a opcode 1 0 count garbage bufs := by
  have hp : (reduceNetwork float 1 garbage bufs count datatype opcode 0).prog 0 = _ := reduceNetwork_prog Nat.one_pos
  rw [mpiReduceRing_alone] at hp
  have hd (s) (hs : Net.Reaches μ (reduceNetwork float 1 garbage bufs count datatype opcode 0) s) :
      s.events 0 = [] ∧ s.prog 0 = .takeNote (.leave 0 0 (bufs 0)) ∨
        s.events 0 = [.note (.leave 0 0 (bufs 0))] ∧ s.prog 0 = .ret () := by
    have hd : Does ((reduceNetwork float 1 garbage bufs count datatype opcode 0).prog 0) (s.events 0) _ :=
      Net.does hs 0
    rw [hp] at hd
    exact hd.of_takeNote
  have hdone (s : Net Note) (he : s.events 0 = [.note (.leave 0 0 (bufs 0))]) :
      Reduced float datatype a opcode 1 0 count bufs s :=
    ⟨bufs 0, by simp [he], ⟨f, ho, fun _ _ => rfl⟩, fun r hr hne => absurd (Nat.lt_one_iff.mp hr) hne⟩
  constructor
  case indices =>
    intro s hs
    rcases hd s hs with ⟨_, h⟩ | ⟨_, h⟩ <;> simp [h, Prog.takeNote]
  case finishes =>
    intro s hs
    rcases hd s hs with ⟨he, h⟩ | ⟨he, _⟩
    · let s' : Net Note := s.advance 0 (.ret ()) (.note (.leave 0 0 (bufs 0)))
      have hstep : Net.Steps μ s s' := ⟨.run 0, by simp [Net.step, h, Prog.takeNote, s']⟩
      refine ⟨s', .single hstep, hdone s' ?_⟩
      rw [Net.events_append rfl 0, he]
      rfl
    · exact ⟨s, .refl, hdone s he⟩

theorem mpiReduceRing_reduces_iff (μ : Medium) (float : Floating) (count : Int) (garbage bufs : Nat → Mem) (hn : 1 ≤ n)
    (hroot : root < n) (ha : arith? datatype = some a) {f : Element datatype → Element datatype → Element datatype}
    (ho : operation? float a opcode = some f) :
    Reduces μ float datatype a opcode n root count garbage bufs ↔ n = 1 := by
  constructor
  case mp =>
    intro h
    by_contra hne
    exact not_reduces hroot (by omega) ha h
  case mpr =>
    rintro rfl
    obtain rfl := Nat.lt_one_iff.mp hroot
    exact reduces_alone ho

theorem mpiReduceRing_reduces_iff_alone :
    Reduces (lossless 1 .id) (fun _ _ x _ => x) .long .signed .sum 1 0 5 (fun _ _ => 0) (fun _ _ => 0) :=
  (mpiReduceRing_reduces_iff (f := (· + ·)) _ _ 5 _ _ (by decide) (by decide) rfl rfl).mpr rfl

theorem not_reduces_two :
    ¬Reduces (lossless 2 .id) (fun _ _ x _ => x) .int .signed .sum 2 0 1 (fun _ _ => 0) (fun _ _ => 0) :=
  not_reduces (by decide) (by decide) rfl

end Mpi
