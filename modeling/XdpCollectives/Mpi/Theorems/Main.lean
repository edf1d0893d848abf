import XdpCollectives.Mpi.Main
import XdpCollectives.Mpi.Theorems.Agreement
import XdpCollectives.Mpi.Theorems.Pipeline
import XdpCollectives.Mpi.Theorems.Separation
import XdpCollectives.Process.Reordering

-- The benchmark, with all that its processes do.
namespace Mpi

open Memory Wire Process Script

variable {n N i j r : Nat} {P P' : Nat → ProcessInfo} {b : Nat → Mem} {algo : Bcast} {f : Forwarder} {c : Call}
  {os : List Outcome} {o : Outcome} {μ : Medium}

-- The calls of `mainChild`, one after the other on the same buffer.
def mainCalls : (i : Nat) → List Call → Mem → ProcessInfo → Program (Mem × ProcessInfo)
  | _, [],      y, p => return (y, p)
  | i, c :: cs, y, p => do
    let (y, p) ← mainCall i c y p
    mainCalls (i + 1) cs y p

theorem mainCalls_append (cs cs' : List Call) (y : Mem) (p : ProcessInfo) :
    mainCalls i (cs ++ cs') y p = mainCalls i cs y p >>= fun (y, p) => mainCalls (i + cs.length) cs' y p := by
  induction cs generalizing i y p with
  | nil            => rfl
  | cons c cs hi   =>
    simp only [List.cons_append, mainCalls, hi, bind_assoc, List.length_cons]
    simp only [show ∀ k, i + 1 + k = i + (k + 1) by omega]

theorem warmup_eq (w : Nat) (y : Mem) (p : ProcessInfo) :
    warmup algo N w i y p = mainCalls i (broadcasts algo 0 (List.replicate w N)) y p := by
  induction w generalizing i y p with
  | zero      => rfl
  | succ w hi =>
    simp only [warmup, hi]
    simp only [List.replicate_succ, broadcasts, List.flatMap_cons, List.cons_append, List.nil_append, mainCalls]

theorem mainChild_eq (p : ProcessInfo) (w : Int) : mainChild p N algo w = do
    let y ← mainBuffer p N
    let _ ← mainCalls 0 (.barrier :: broadcasts algo 0 (List.replicate (w.toNat + 1) N)) y p
    return () := by
  have hb : broadcasts algo 0 (List.replicate (w.toNat + 1) N) = broadcasts algo 0 (List.replicate w.toNat N) ++
      [.bcast algo N .char 0, .barrier] := by
    rw [List.replicate_succ', broadcasts, List.flatMap_append, ← broadcasts]
    rfl
  have hl : (broadcasts algo 0 (List.replicate w.toNat N)).length = 2 * w.toNat := by
    simp [broadcasts]
    omega
  simp only [mainChild, warmup_eq, hb, mainCalls, mainCalls_append, bind_assoc, hl, pure_bind]
  simp only [show ∀ k, 0 + 1 + k = k + 1 by omega]

-- `N` characters, of which the last but one is marked.
def markedText (N : Nat) : Bytes :=
  List.replicate (N - 2) 97 ++ [69, 0]

theorem markedText_last {m : Mem} (h : m.read 0 N = markedText N) : m (N - 1) = 0 := by
  have hl := congrArg List.length h
  simp only [Mem.read_length, markedText, List.length_append, List.length_replicate, List.length_cons,
    List.length_nil] at hl
  have hg := congrArg (·[N - 1]?) h
  simp only [markedText] at hg
  rw [Mem.read_getElem? (by omega), List.getElem?_append_right (by simp; omega), Nat.zero_add] at hg
  simpa [show N - 1 - (N - 2) = 1 by omega] using hg

-- How a rank that follows a script goes on.
structure Follows
    (R : Nat → Program (Mem × ProcessInfo) → List (Process.Act Note) → Program (Mem × ProcessInfo) → Prop) : Prop where
  ret : ∀ r v, R r (.ret v) [] (.ret v)
  seq : ∀ r x t v g t' z, R r x t (.ret v) → R r (g v) t' z → (t' = [] ∨ ∃ e u, t' = .note e :: u) →
    R r (x >>= g) (t ++ t') z

variable {R : Nat → Program (Mem × ProcessInfo) → List (Process.Act Note) → Program (Mem × ProcessInfo) → Prop}

-- A call of the benchmark that ends well, with the marked text in the buffer of rank 0.
structure Serves (R : Nat → Program (Mem × ProcessInfo) → List (Process.Act Note) → Program (Mem × ProcessInfo) → Prop)
    (n N : Nat) (Q : Call → Outcome → Prop) (i : Nat) (c : Call) (P : Nat → ProcessInfo) (b : Nat → Mem) (o : Outcome) :
    Prop where
  follows : ∀ r < n, R r (mainCall i c (b r) (P r)) (round n i o r) (.ret (o.buf r, o.proc r))
  ranked  : Ranked n o.proc
  keeps   : c = .barrier → o.buf = b ∧ ∃ P', o.flow = barrierFlow n P'
  spreads : c ≠ .barrier → ∀ r < n, (o.buf r).read 0 N = markedText N
  holds   : Q c o

theorem rounds_notes (n i : Nat) (os : List Outcome) (r : Nat) : ((rounds n i os).map (· r)).flatten = [] ∨
    ∃ e u, ((rounds n i os).map (· r)).flatten = .note e :: u := by
  cases os with
  | nil       => exact .inl rfl
  | cons o os =>
    rw [rounds, List.map_cons, List.flatten_cons, round]
    split
    case isTrue  => exact .inr ⟨_, _, rfl⟩
    case isFalse =>
      refine .inl ?_
      rw [List.nil_append, List.flatten_eq_nil_iff]
      intro l hl
      obtain ⟨t, ht, he⟩ := List.mem_map.mp hl
      obtain ⟨j, o, _, ht⟩ := mem_rounds ht
      rw [← he, ht, round, if_neg ‹_›]

-- Calls on the same buffers, one after the other.
theorem exists_serves (hR : Follows R) {Q : Call → Outcome → Prop} (hn : 0 < n) (cs : List Call)
    (h : ∀ i c P b, c ∈ cs → Ranked n P → (b 0).read 0 N = markedText N → ∃ o, Serves R n N Q i c P b o)
    (hP : Ranked n P) (hb : (b 0).read 0 N = markedText N) :
    ∃ (os : List Outcome) (B : Nat → Nat → Mem) (P' : Nat → ProcessInfo), os.length = cs.length ∧ B 0 = b ∧
      (∀ r < n, R r (mainCalls i cs (b r) (P r)) ((rounds n i os).map (· r)).flatten (.ret (B cs.length r, P' r))) ∧
      ∀ j c, cs[j]? = some c → ∃ o P, os[j]? = some o ∧ o.buf = B (j + 1) ∧ Serves R n N Q (i + j) c P (B j) o := by
  induction cs generalizing i P b with
  | nil          => exact ⟨[], fun _ => b, P, rfl, rfl, fun r _ => hR.ret r _, by simp⟩
  | cons c cs hi =>
    obtain ⟨o, ho⟩ := h i c P b List.mem_cons_self hP hb
    have hb' : (o.buf 0).read 0 N = markedText N := by
      by_cases hc : c = .barrier
      · rwa [(ho.keeps hc).left]
      · exact ho.spreads hc 0 hn
    obtain ⟨os, B, P', hl, hB, hf, hs⟩ := hi (i := i + 1) (fun i c P b hc => h i c P b (List.mem_cons_of_mem _ hc))
      ho.ranked hb'
    refine ⟨o :: os, fun j => Nat.casesOn j b B, P', by rw [List.length_cons, List.length_cons, hl], rfl,
      fun r hr => ?_, fun j c hj => ?_⟩
    · rw [rounds, List.map_cons, List.flatten_cons]
      exact hR.seq _ _ _ _ _ _ _ (ho.follows r hr) (hf r hr) (rounds_notes ..)
    · cases j with
      | zero   =>
        obtain rfl := Option.some.inj hj
        exact ⟨o, P, rfl, hB.symm, ho⟩
      | succ j =>
        obtain ⟨o', P'', ho', he, hs'⟩ := hs j c hj
        rw [show i + 1 + j = i + (j + 1) by omega] at hs'
        exact ⟨o', P'', ho', he, hs'⟩

-- The calls of the benchmark: a broadcast between every two barriers.
def mainProgram (algo : Bcast) (N w : Nat) : List Call :=
  .barrier :: broadcasts algo 0 (List.replicate (w + 1) N)

theorem mainProgram_length (w : Nat) : (mainProgram algo N w).length = 2 * w + 3 := by
  simp [mainProgram, broadcasts]
  omega

theorem broadcasts_barrier (counts : List Nat) (h : c = .barrier ∨ ∃ k, i = 2 * k + 1)
    (hc : (broadcasts algo 0 counts)[i]? = some c) : c = .barrier := by
  rcases h with h | ⟨k, rfl⟩
  · exact h
  · induction counts generalizing k with
    | nil => contradiction
    | cons count counts hi =>
      cases k with
      | zero   => exact (Option.some.inj hc).symm
      | succ k => exact hi k hc

theorem mainProgram_even {k w : Nat} (hc : (mainProgram algo N w)[2 * k]? = some c) : c = .barrier := by
  cases k with
  | zero   => exact (Option.some.inj hc).symm
  | succ k => exact broadcasts_barrier (List.replicate (w + 1) N) (.inr ⟨k, rfl⟩) hc

theorem mainProgram_odd {k w : Nat} (hc : (mainProgram algo N w)[2 * k + 1]? = some c) :
    c = .bcast algo N .char 0 := by
  rw [mainProgram, List.getElem?_cons_succ, broadcasts_getElem?, List.getElem?_replicate] at hc
  split at hc
  · exact (Option.some.inj hc).symm
  · contradiction

-- What is known of the rounds of the benchmark.
structure Schedule (n N w : Nat) (algo : Bcast) (Q : Call → Outcome → Prop) (os : List Outcome) : Prop where
  length   : os.length = 2 * w + 3
  spreads  : ∀ (i : Nat) o, os[i]? = some o → 1 ≤ i → ∀ r < n, (o.buf r).read 0 N = markedText N
  barriers : ∀ (k : Nat) o, os[2 * k]? = some o → ∃ P, o.flow = barrierFlow n P
  holds    : ∀ (i : Nat) o, os[i]? = some o → ∃ c, (mainProgram algo N w)[i]? = some c ∧ Q c o

theorem exists_schedule (hR : Follows R) {Q : Call → Outcome → Prop} (hn : 0 < n) (algo : Bcast) (w : Nat)
    (h : ∀ i c P b, c ∈ mainProgram algo N w → Ranked n P → (b 0).read 0 N = markedText N →
      ∃ o, Serves R n N Q i c P b o)
    (hP : Ranked n P) (hb : (b 0).read 0 N = markedText N) :
    ∃ (os : List Outcome) (y : Nat → Mem × ProcessInfo), Schedule n N w algo Q os ∧
      ∀ r < n, R r (mainCalls 0 (mainProgram algo N w) (b r) (P r)) (Plan.script n os r) (.ret (y r)) := by
  obtain ⟨os, B, P', hl, _, hf, hs⟩ := exists_serves hR hn (i := 0) _ h hP hb
  rw [mainProgram_length] at hl
  have hcall {i : Nat} {o} (ho : os[i]? = some o) : ∃ c P, (mainProgram algo N w)[i]? = some c ∧ o.buf = B (i + 1) ∧
      Serves R n N Q i c P (B i) o := by
    have hi : i < (mainProgram algo N w).length := by
      rw [mainProgram_length, ← hl]
      exact (List.getElem?_eq_some_iff.mp ho).choose
    obtain ⟨o', P, ho', he, hs⟩ := hs i _ (List.getElem?_eq_getElem hi)
    obtain rfl : o = o' := Option.some.inj (ho.symm.trans ho')
    rw [Nat.zero_add] at hs
    exact ⟨_, P, List.getElem?_eq_getElem hi, he, hs⟩
  have hodd {k : Nat} {o} (ho : os[2 * k + 1]? = some o) : ∀ r < n, (o.buf r).read 0 N = markedText N := by
    obtain ⟨c, P, hc, _, hs⟩ := hcall ho
    obtain rfl := mainProgram_odd hc
    exact hs.spreads (by simp)
  refine ⟨os, fun r => (B _ r, P' r), ⟨hl, fun i o ho hi => ?_, fun k o ho => ?_, fun i o ho => ?_⟩, hf⟩
  · rcases Nat.even_or_odd' i with ⟨k, rfl | rfl⟩
    case inr => exact hodd ho
    case inl =>
      -- Before a barrier that is not the first there is a broadcast.
      obtain ⟨c, P, hc, _, hs⟩ := hcall ho
      obtain rfl := mainProgram_even hc
      have hlt := (List.getElem?_eq_some_iff.mp ho).choose
      obtain ⟨k, rfl⟩ : ∃ j, k = j + 1 := ⟨k - 1, by omega⟩
      have ho' : os[2 * k + 1]? = some os[2 * k + 1] := List.getElem?_eq_getElem (by omega)
      obtain ⟨_, _, _, he, _⟩ := hcall ho'
      rw [(hs.keeps rfl).left, show 2 * (k + 1) = 2 * k + 1 + 1 by omega, ← he]
      exact hodd ho'
  · obtain ⟨c, P, hc, _, hs⟩ := hcall ho
    exact (hs.keeps (mainProgram_even hc)).right
  · obtain ⟨c, P, hc, _, hs⟩ := hcall ho
    exact ⟨c, hc, hs.holds⟩

-- The benchmark at any time: every broadcast leaves the text of rank 0 in all buffers, and a rank that begins a
-- broadcast knows that the ranks before it, and rank 0 that all ranks have left the one before.
structure Measured (f : Forwarder) (n N w : Nat) (s : Net Note) : Prop where
  returns  : ∀ r < n, ∀ i ret y, .note (.leave i ret y) ∈ s.events r →
    ret = 0 ∧ (1 ≤ i → y.read 0 N = markedText N)
  apart    : ∀ k, ∀ r < n, ∀ p < n, p ≤ r ∨ r = 0 → Entered (2 * k + 3) (s.events r) → Left (2 * k + 1) (s.events p)
  ends     : ∀ r < n, (s.prog r).Ended → ∀ i < 2 * w + 3, Left i (s.events r)
  proceeds : ¬s.Stuck (lossless n f) n

section Plans

variable {w : Nat} {Q : Call → Outcome → Prop} {a : Process.Plan Note} {source : Nat → Nat} {s : Net Note}

theorem Schedule.measured (h : Schedule n N w algo Q os) (hn : 2 ≤ n) (hc : ∀ o ∈ os, o.Conducted n source)
    (ra : (State.start (Plan.script n os)).Reaches a)
    (hnotes : ∀ r e, .note e ∈ s.events r ↔ .note e ∈ a.done r)
    (hended : ∀ r < n, (s.prog r).Ended → a.todo r = []) (hstuck : ¬s.Stuck (lossless n f) n) :
    Measured f n N w s where
  returns := by
    intro r hr i ret y hm
    obtain ⟨o, ho, hret, hy⟩ := Plan.script_leave hc ((ra.done_prefix r).subset ((hnotes r _).mp hm))
    exact ⟨hret, fun hi => hy ▸ h.spreads i o ho hi r hr⟩
  apart := by
    intro k r hr p hp hpr hm
    have hu := upto_of_enter hc ra hr ((hnotes r _).mp hm)
    have hi : .note (.enter (2 * k + 3)) ∈ Plan.script n os r :=
      (ra.done_prefix r).subset ((hnotes r _).mp hm)
    have hlt := (Plan.rounds_sections hc hr).opens_lt hi rfl
    rw [List.length_map, rounds_length] at hlt
    have ho : os[2 * (k + 1)]? = some os[2 * (k + 1)] := List.getElem?_eq_getElem (by omega)
    obtain ⟨P, hf⟩ := h.barriers (k + 1) _ ho
    have hh := handed_of_leave hc ra hn ho hf hu hr hp hpr
    have ho' : os[2 * k + 1]? = some os[2 * k + 1] := List.getElem?_eq_getElem (by omega)
    have hl := leave_of_upto hp ho' ((List.prefix_append _ _).trans hh)
    exact ⟨0, _, (hnotes p _).mpr hl⟩
  ends := by
    intro r hr he i hi
    have hd : a.done r = Plan.script n os r := by
      have hs := congrFun ra.script_eq r
      rwa [State.script, hended r hr he, List.append_nil] at hs
    have hlt : i < os.length := by
      rw [h.length]
      exact hi
    have ho : os[i]? = some os[i] := List.getElem?_eq_getElem hlt
    have hl := leave_of_upto (a := a) hr ho (by rw [hd]; exact upto_isPrefix _ _ _)
    exact ⟨0, _, (hnotes r _).mpr hl⟩
  proceeds := hstuck

theorem orderly_of_polite (hc : ∀ o ∈ os, o.Conducted n source) (hp : ∀ o ∈ os, Polite source o.flow)
    (ra : (State.start (Plan.script n os)).Reaches a) : Orderly (lossless n f) a := by
  intro q
  have hs : Balanced (putting (.udp q) fun _ => true) (getting (.tcp q (source q)) isHeader) 1
      (Plan.script n os (source q)) :=
    Plan.rounds_balanced fun j o ho => Plan.round_balanced (fun _ => ⟨rfl, rfl⟩) ((hp o ho).spends q) j
  have ha : Balanced (putting (.tcp q (source q)) isHeader) (getting (.udp q) fun _ => true) 0
      (Plan.script n os q) :=
    Plan.rounds_balanced fun j o ho => Plan.round_balanced (fun _ => ⟨rfl, rfl⟩) ((hp o ho).answers q) j
  have hcon := State.Conserves.start.reaches (Plan.script_owned hc) ra
  exact hcon.length_le (c := .udp q) (b := .tcp q (source q)) rfl rfl
    (hs.within.le (ra.done_prefix _)) (ha.within.le (ra.done_prefix _))

end Plans

-- What is in `y` when the processes begin.
def startBuf (garbage : Nat → Mem) (N r : Nat) : Mem :=
  let y := ((garbage r).write 0 (List.replicate N 97)).write (N - 1) [0]
  if r = 0 then y.write (N - 2) [69] else y

theorem mainBuffer_eq (garbage : Nat → Mem) (hN : 2 ≤ N) (r : Nat) :
    mainBuffer (.init n r (garbage r)) N = .ret (startBuf garbage N r) := by
  have h₁ : ¬(N : Int) < 1 := by omega
  have h₂ : ¬(N : Int) < 2 := by omega
  by_cases hr : r = 0
  case pos => simp [mainBuffer, startBuf, ProcessInfo.init, hr, h₁, h₂, Prog.pure_eq_ret]
  case neg => simp [mainBuffer, startBuf, ProcessInfo.init, hr, h₁, Prog.pure_eq_ret]

theorem startBuf_marked (garbage : Nat → Mem) (hN : 2 ≤ N) : (startBuf garbage N 0).read 0 N = markedText N := by
  obtain ⟨M, rfl⟩ : ∃ M, N = M + 2 := ⟨N - 2, by omega⟩
  have hall : (((garbage 0).write 0 (List.replicate (M + 2) 97)).read 0 (M + 2)).take M = List.replicate M 97 := by
    have h := Mem.read_write_same (garbage 0) 0 (List.replicate (M + 2) 97)
    rw [List.length_replicate] at h
    rw [h, List.take_replicate, Nat.min_eq_left (by omega)]
  rw [Mem.read_take _ _ (by omega)] at hall
  rw [startBuf, if_pos rfl, markedText, Nat.add_sub_cancel, show M + 2 - 1 = M + 1 by omega, Mem.read_append,
    Mem.read_write_disjoint (.inl (by omega)), Mem.read_write_disjoint (.inl (by omega)), hall, Nat.zero_add]
  congr 1
  have h₁ : Mem.write (Mem.write (Mem.write (garbage 0) 0 (List.replicate (M + 2) 97)) (M + 1) [0]) M [69] M = 69 :=
    Mem.write_inside (k := 0) (by decide)
  have h₂ : Mem.write (Mem.write (Mem.write (garbage 0) 0 (List.replicate (M + 2) 97)) (M + 1) [0]) M [69] (M + 1) =
      0 := by
    rw [Mem.write_outside (by simp)]
    exact Mem.write_inside (k := 0) (by decide)
  rw [Mem.read, Mem.read, Mem.read, h₁, h₂]

section Acknowledged

theorem performs_follows (μ : Medium) : Follows fun r => Performs μ r where
  ret _ _               := .refl
  seq _ _ _ _ _ _ _ h g _ := h.seq g

theorem mainCall_performs {y y' : Mem} {p p' : ProcessInfo} {ret : Int}
    (h : Performs μ r (c.perform p y) t (.ret (ret, y', p'))) :
    Performs μ r (mainCall i c y p) (.note (.enter i) :: (t ++ [.note (.leave i ret y')])) (.ret (y', p')) :=
  .note (h.seq (.note .refl))

theorem exists_serves_acknowledged (f : Forwarder) (hn : 2 ≤ n) (ha : algo ≠ .ringXdpEager) (hc : Single 1 N)
    (hP : Ranked n P) (hb : (b 0).read 0 N = markedText N) (w : Nat) (hm : c ∈ mainProgram algo N w) :
    ∃ o, Serves (fun r => Performs (lossless n f) r) n N
      (fun _ o => o.Conducted n (algo.source n 0) ∧ Polite (algo.source n 0) o.flow) i c P b o := by
  have hserve {c o} (hp : Plays (lossless n f) n (algo.source n 0) c P b o)
      (hk : c = .barrier → o.buf = b ∧ ∃ P', o.flow = barrierFlow n P')
      (hs : c ≠ .barrier → ∀ r < n, (o.buf r).read 0 N = markedText N) :
      Serves (fun r => Performs (lossless n f) r) n N
        (fun _ o => o.Conducted n (algo.source n 0) ∧ Polite (algo.source n 0) o.flow) i c P b o := {
    follows := fun r hr => by
      rw [round, if_pos hr]
      exact mainCall_performs (hp.performs r hr)
    ranked  := hp.ranked
    keeps   := hk
    spreads := hs
    holds   := ⟨⟨hp.idle, hp.quiet, hp.drains, hp.polite.owned⟩, hp.polite⟩ }
  rcases List.mem_cons.mp hm with rfl | hm
  · exact ⟨_, hserve (barrier_plays _ _ hn hP b) (fun _ => ⟨rfl, P, rfl⟩) (by simp)⟩
  · rcases mem_broadcasts hm with rfl | ⟨count, hcount, rfl⟩
    · exact ⟨_, hserve (barrier_plays _ _ hn hP b) (fun _ => ⟨rfl, P, rfl⟩) (by simp)⟩
    · obtain rfl := List.eq_of_mem_replicate hcount
      obtain ⟨o, hp, hh⟩ := bcast_hands (m := b) f hn (show 0 < n by omega) hP hc ha
      refine ⟨o, hserve hp (by simp) fun _ r hr => ?_⟩
      rw [hh.agree (markedText_last hb) r hr, hb]

theorem main_measured_acknowledged (f : Forwarder) (garbage : Nat → Mem) (hn : 2 ≤ n) (ha : algo ≠ .ringXdpEager)
    (hN : 2 ≤ N) (hl : mpiHeader + N ≤ maxPayload) (w : Int) {s : Net Note}
    (h : Net.Reaches (lossless n f) (mainNetwork n garbage N algo w) s) : Measured f n N w.toNat s := by
  obtain ⟨os, y, hs, hf⟩ := exists_schedule (performs_follows (lossless n f)) (by omega) algo w.toNat
    (fun i c P b hm hP hb => exists_serves_acknowledged f hn ha ⟨by omega, by omega⟩ hP hb w.toNat hm)
    (Plan.ranks_ranked n garbage) (startBuf_marked garbage hN)
  have hc : ∀ o ∈ os, o.Conducted n (algo.source n 0) ∧ Polite (algo.source n 0) o.flow := fun o ho => by
    obtain ⟨i, ho⟩ := List.mem_iff_getElem?.mp ho
    obtain ⟨c, _, hq⟩ := hs.holds i o ho
    exact hq
  have hcond o (ho : o ∈ os) := (hc o ho).left
  have hsim : Sim (lossless n f) (fun _ => .ret ()) (mainNetwork n garbage N algo w) (.start (Plan.script n os)) := by
    apply Sim.start
    intro r
    by_cases hr : r < n
    case pos =>
      rw [if_pos hr, mainChild_eq, mainBuffer_eq _ hN]
      exact (hf r hr).map rfl
    case neg =>
      rw [if_neg hr, Plan.script_idle (by omega)]
      exact .refl
  have howned := Plan.script_owned hcond
  have hcomp := Plan.script_completes hcond
  obtain ⟨a, ra, hsim⟩ := hsim.reaches (fun _ => trivial) howned .start (hcomp.agrees howned .start)
    (fun _ => orderly_of_polite hcond fun o ho => (hc o ho).right) rfl h
  exact hs.measured hn hcond ra (fun r e => note_mem_iff (hsim.events r))
    (fun r _ => (hsim.ended_iff (fun _ => trivial) r).mp)
    (hsim.not_stuck (fun _ => trivial) (hcomp.reaches howned ra) n)

end Acknowledged

end Mpi
