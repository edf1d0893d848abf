import XdpCollectives.Mpi.Theorems.Main
import XdpCollectives.Mpi.Theorems.Reassembly
import XdpCollectives.Process.Traces

-- The benchmark with the broadcasts that nobody acknowledges: the barriers keep their datagrams apart.
namespace Mpi

open Memory Wire Process Script

variable {n N i r p root count : Nat} {algo : Bcast} {P : Nat → ProcessInfo} {b m : Nat → Mem} {f : Forwarder}
  {c : Call} {os : List Outcome} {o : Outcome} {μ : Medium} {a : Process.Plan Note}

theorem mainCall_tolerates {y y' : Mem} {p p' : ProcessInfo} {ret : Int}
    (h : Tolerates μ r (c.perform p y) t (.ret (ret, y', p'))) :
    Tolerates μ r (mainCall i c y p) (.note (.enter i) :: (t ++ [.note (.leave i ret y')])) (.ret (y', p')) :=
  .note (h.seq (.of_performs (.note .refl) (by simp)) (by simp))

theorem tolerates_follows (μ : Medium) : Follows fun r => Tolerates μ r where
  ret _ _ := .of_performs .refl (by simp)
  seq _ _ _ _ _ t' _ h g ht := by
    refine h.seq g fun d u he => ?_
    rcases ht with rfl | ⟨e, u, rfl⟩
    · contradiction
    · simp at he

section Calls

variable (hP : Ranked n P) (h0 : 0 < count) (hl : mpiHeader + count < 2 ^ 31)
include hP h0 hl

variable (f root m) in
-- A rank takes the datagrams of a message in any order.
theorem mpiRecvNoAck_gathers (dest : Nat) (tag : Int) (collective : MPICollective) (hr : r < n) :
    ∃ p', p'.rank = r ∧ p'.size = n ∧ Gathers (lossless n f) r (mpiRecvNoAck (P r) (m r) count .char (P r).prev)
      (datagrams (P root) (m root) 1 count .char root dest tag collective)
      [.note (.stored (delivered (m root) (m r) count))] (.ret (count, delivered (m root) (m r) count, p')) := by
  obtain ⟨hrank, hsize⟩ := hP r hr
  by_cases h1 : Single 1 count
  case pos =>
    obtain ⟨p', hrank', hsize', hp⟩ := mpiRecvNoAck_collect root f m hP h0 hl dest tag collective hr
    have hb : Sendable 1 count := ⟨h0, .inr ⟨rfl, by simp only [mpiHeader] at hl; omega⟩⟩
    obtain ⟨d, _, hd, _⟩ := datagrams_single root .char (m root) tag collective (p := P root) (r := dest) rfl hb h1
    refine ⟨p', hrank', hsize', fun ds hds => ?_⟩
    rw [hd] at hp hds
    rw [List.perm_singleton.mp hds]
    exact hp
  case neg =>
    have hc : maxPayload < mpiHeader + count := by
      by_contra hle
      exact h1 ⟨h0, by omega⟩
    refine ⟨(P r).countId (P r).prev r, hrank, hsize, fun ds hds => ?_⟩
    have hlt : (P r).prev < (P r).size := Nat.mod_lt _ (by omega)
    rw [datagrams_fragments hc] at hds
    obtain ⟨qs, hq, rfl⟩ := exists_perm_map hds
    have hrecv := mpiRecvNoAck_gathered (P root) (P r).prev root dest (m r) (m root) tag collective
      (μ := lossless n f) (p := P r) rfl (f.same _) hc hl hlt (.of_perm h0 rfl hq)
    rw [gathered_all h0 fun i hi => hq.mem_iff.mpr (List.mem_range.mpr hi), hrank] at hrecv
    rw [List.map_map]
    exact hrecv

variable (f m) in
-- The eager broadcast, with its datagrams in any order.
theorem eager_tolerates (hn : 2 ≤ n) (hroot : root < n) : ∃ (ds : List Bytes) (o : Outcome),
    o.flow = eagerFlow n root ds o.buf ∧ o.buf = eagerBuf root count m ∧ Ranked n o.proc ∧
    ∀ r < n, Tolerates (lossless n f) r (mpiBcastRingXdpEager (P r) (m r) count .char root) (proj r o.flow)
      (.ret (0, o.buf r, o.proc r)) := by
  let next := (root + 1) % n
  have hlt : next < n := Nat.mod_lt _ (by omega)
  have hne : next ≠ root := Cycle.add_mod_ne hroot Nat.one_pos hn
  have hs : Sendable 1 count := ⟨h0, .inr ⟨rfl, by simp only [mpiHeader] at hl; omega⟩⟩
  let ds := datagrams (P root) (m root) 1 count .char root next 1 .bcastRing
  have hrecv r : ∃ p', r < n → p'.rank = r ∧ p'.size = n ∧
      Gathers (lossless n f) r (mpiRecvNoAck (P r) (m r) count .char (P r).prev) ds
        [.note (.stored (delivered (m root) (m r) count))] (.ret (count, delivered (m root) (m r) count, p')) := by
    by_cases hr : r < n
    case pos =>
      obtain ⟨p', h⟩ := mpiRecvNoAck_gathers root m f hP h0 hl next 1 .bcastRing hr
      exact ⟨p', fun _ => h⟩
    case neg => exact ⟨P r, fun h => absurd h hr⟩
  choose p' hrecv using hrecv
  refine ⟨ds, {
    flow   := eagerFlow n root ds (eagerBuf root count m)
    buf    := eagerBuf root count m
    proc r := if r = root then (P root).countId root next else p' r }, rfl, rfl, fun r hr => ?_, fun r hr => ?_⟩
  · dsimp only
    split
    case isTrue he  => exact he ▸ hP root hroot
    case isFalse he => exact ⟨(hrecv r hr).left, (hrecv r hr).right.left⟩
  · obtain ⟨hrank, hsize⟩ := hP r hr
    by_cases he : r = root
    case pos =>
      subst he
      have hnext : (P r).next = next := by rw [ProcessInfo.next, hrank, hsize]
      have hsend := _mpiSend_performs r .char (m r) 1 .bcastRing (μ := lossless n f) (p := P r) (r := next)
        (by omega) (by omega) (by omega) rfl hs
      have hm : ds.map (fun d => (.put ((lossless n f).outs r next d) : Process.Act Note)) =
          ds.map fun d => .put ((others n r).map fun q => (.udp q, d)) := List.map_congr_left fun d hd => by
        rw [outs_others (.inl rfl) (datagrams_collective hd)]
      rw [hrank, hm] at hsend
      simp only [proj_eager_root, eagerBuf, if_true]
      rw [mpiBcastRingXdpEager, if_pos hrank, hnext]
      exact .of_performs (hsend.map rfl) (by simp)
    case neg =>
      simp only [proj_eager_other hr he, eagerBuf, if_neg he]
      rw [mpiBcastRingXdpEager, if_neg (by omega), collect]
      exact ((hrecv r hr).right.right.tolerates (by simp) (by simp)).map (if_neg (by simp))

end Calls

theorem exists_serves_eager (f : Forwarder) (hn : 2 ≤ n) (hl : mpiHeader + N < 2 ^ 31)
    (hP : Ranked n P) (hb : (b 0).read 0 N = markedText N) (w : Nat) (hm : c ∈ mainProgram .ringXdpEager N w) :
    ∃ o, Serves (fun r => Tolerates (lossless n f) r) n N
      (fun c o => o.Conducted n (fun _ => 0) ∧ (c ≠ .barrier → ∃ ds, o.flow = eagerFlow n 0 ds o.buf)) i c P b o := by
  have hbarrier : ∃ o, Serves (fun r => Tolerates (lossless n f) r) n N
      (fun c o => o.Conducted n (fun _ => 0) ∧ (c ≠ .barrier → ∃ ds, o.flow = eagerFlow n 0 ds o.buf)) i .barrier P b
      o := by
    have hp := barrier_plays (lossless n f) (fun _ => 0) hn hP b
    refine ⟨_, fun r hr => ?_, hp.ranked, fun _ => ⟨rfl, P, rfl⟩, by simp,
      ⟨hp.idle, hp.quiet, hp.drains, hp.polite.owned⟩, by simp⟩
    rw [round, if_pos hr]
    refine mainCall_tolerates (.of_performs (hp.performs r hr) fun d hd => ?_)
    rcases mem_barrierFlow hd with ⟨_, he⟩ | ⟨_, he⟩ <;> simp at he
  rcases List.mem_cons.mp hm with rfl | hm
  · exact hbarrier
  · rcases mem_broadcasts hm with rfl | ⟨count, hcount, rfl⟩
    · exact hbarrier
    · obtain rfl := List.eq_of_mem_replicate hcount
      have h0 : 0 < count := by
        by_contra h
        obtain rfl : count = 0 := by omega
        simp [Mem.read, markedText] at hb
      obtain ⟨ds, o, hflow, hbuf, hP', ho⟩ := eager_tolerates b f hP h0 hl hn (show 0 < n by omega)
      have hst : Streams n 0 count b o := ⟨⟨ds, hflow⟩, hbuf⟩
      refine ⟨o, fun r hr => ?_, hP', by simp, fun _ r _ => ?_, hst.conducted (by omega), fun _ => ⟨ds, hflow⟩⟩
      · rw [round, if_pos hr]
        exact mainCall_tolerates (ho r hr)
      · rw [hbuf, eagerBuf_read h0 (markedText_last hb), hb]

-- Where one stands in a list of lists.
theorem exists_section {α : Type} {L : List (List α)} {u : List α} {x : α} (h : u ++ [x] <+: L.flatten) :
    ∃ i l pre post, L[i]? = some l ∧ l = pre ++ x :: post ∧ u = (L.take i).flatten ++ pre := by
  induction L generalizing u with
  | nil       => simp at h
  | cons l L hi =>
    rw [List.flatten_cons] at h
    rcases List.prefix_or_prefix_of_prefix h (List.prefix_append l L.flatten) with ⟨v, hv⟩ | ⟨v, hv⟩
    · exact ⟨0, l, u, v, rfl, by rw [← hv, List.append_assoc, List.singleton_append], rfl⟩
    · cases v using List.reverseRecOn with
      | nil =>
        rw [List.append_nil] at hv
        exact ⟨0, l, u, [], rfl, by rw [hv], rfl⟩
      | append_singleton v y =>
        rw [← List.append_assoc] at hv
        obtain ⟨hu, hx⟩ := List.append_inj' hv rfl
        obtain rfl : y = x := by simpa using hx
        rw [← hu, List.append_assoc, List.prefix_append_right_inj] at h
        obtain ⟨i, l', pre, post, hl, he, hp⟩ := hi h
        refine ⟨i + 1, l', pre, post, hl, he, ?_⟩
        rw [← hu, hp, List.take_succ_cons, List.flatten_cons, List.append_assoc]

-- One of the datagrams that a rank collects.
theorem collect_split {ds : List Bytes} {d : Bytes} {t pre post : List (Process.Act Note)}
    (ht : ∀ d, .get (.udp r) d ∉ t) (h : ds.map (.get (.udp r)) ++ t = pre ++ .get (.udp r) d :: post) :
    ∃ ds₁ ds₂, ds = ds₁ ++ d :: ds₂ ∧ pre = ds₁.map (.get (.udp r)) ∧ post = ds₂.map (.get (.udp r)) ++ t := by
  induction ds generalizing pre with
  | nil          =>
    rw [List.map_nil, List.nil_append] at h
    exact absurd (h ▸ List.mem_append_right _ List.mem_cons_self) (ht d)
  | cons e ds hi =>
    rw [List.map_cons, List.cons_append] at h
    cases pre with
    | nil          =>
      obtain ⟨he, hp⟩ := List.cons.inj h
      obtain ⟨_, rfl⟩ := Act.get.inj he
      exact ⟨[], ds, rfl, rfl, hp.symm⟩
    | cons act pre =>
      obtain ⟨rfl, hp⟩ := List.cons.inj h
      obtain ⟨ds₁, ds₂, rfl, rfl, rfl⟩ := hi hp
      exact ⟨e :: ds₁, ds₂, rfl, rfl, rfl⟩

section Plans

variable {w : Nat} {Q : Call → Outcome → Prop}

-- As long as a rank has not left a broadcast, the root sends no more datagrams than those.
theorem Schedule.root_waits (h : Schedule n N w algo Q os) (hn : 2 ≤ n) (hc : ∀ o ∈ os, o.Conducted n fun _ => 0)
    (ra : (State.start (Plan.script n os)).Reaches a) {k : Nat} (hk : 2 * k + 2 < os.length) (hp : p < n)
    (hu : ¬upto (rounds n 0 os) (2 * k + 2) p <+: a.done p) (q : Nat) :
    ((a.done 0).flatMap (Act.puts (.udp q))).length ≤
      ((upto (rounds n 0 os) (2 * k + 2) 0).flatMap (Act.puts (.udp q))).length := by
  have ho : os[2 * (k + 1)]? = some os[2 * (k + 1)] := List.getElem?_eq_getElem hk
  obtain ⟨P, hf⟩ := h.barriers (k + 1) _ ho
  rcases List.prefix_or_prefix_of_prefix (ra.done_prefix 0) (upto_isPrefix (rounds n 0 os) (2 * (k + 1) + 1) 0) with
    hle | hge
  · have hbarrier : (round n (2 * (k + 1)) os[2 * (k + 1)] 0).flatMap (Act.puts (.udp q)) = [] := by
      rw [round_flatMap (fun _ => rfl) _ (by omega), List.flatMap_eq_nil_iff]
      intro act hact
      rw [hf] at hact
      rcases mem_barrierFlow hact with ⟨_, rfl⟩ | ⟨_, rfl⟩ <;> simp [Act.puts, outsOn]
    obtain ⟨v, hv⟩ := hle
    rw [upto_succ ho] at hv
    have hl := congrArg (fun t => (t.flatMap (Act.puts (.udp q))).length) hv
    simp only [List.flatMap_append, List.length_append, hbarrier, List.length_nil] at hl
    rw [show 2 * (k + 1) = 2 * k + 2 by omega] at hl
    omega
  · have hh := handed_of_leave hc ra hn ho hf hge (by omega) hp (.inr rfl)
    exact absurd ((List.prefix_append _ _).trans hh) hu

-- The root has not begun another broadcast while a rank waits for the datagrams of one.
theorem Schedule.phased (h : Schedule n N w .ringXdpEager
      (fun c o => o.Conducted n (fun _ => 0) ∧ (c ≠ .barrier → ∃ ds, o.flow = eagerFlow n 0 ds o.buf)) os)
    (hn : 2 ≤ n) (hc : ∀ o ∈ os, o.Conducted n fun _ => 0)
    (ra : (State.start (Plan.script n os)).Reaches a) : Phased a := by
  intro p d t ht
  have hscript : a.done p ++ a.todo p = Plan.script n os p := congrFun ra.script_eq p
  have hpos : a.done p ++ [.get (.udp p) d] <+: ((rounds n 0 os).map (· p)).flatten := by
    refine ⟨t, ?_⟩
    rw [List.append_assoc, List.singleton_append, ← ht, hscript]
    rfl
  obtain ⟨i, l, pre, post, hl, he, hdone⟩ := exists_section hpos
  rw [List.getElem?_map, rounds_getElem?, Option.map_map, Nat.zero_add] at hl
  obtain ⟨o, ho, rfl⟩ := Option.map_eq_some_iff.mp hl
  rw [Function.comp_apply] at he
  rw [← List.map_take] at hdone
  have hdone : a.done p = upto (rounds n 0 os) i p ++ pre := hdone
  have hlt : p < n := by
    by_contra hp
    simp [round, hp] at he
  have hmem : .get (.udp p) d ∈ proj p o.flow := by
    have hm : .get (.udp p) d ∈ round n i o p := he ▸ List.mem_append_right _ List.mem_cons_self
    rw [round, if_pos hlt] at hm
    simpa using hm
  -- A rank waits for datagrams in broadcasts, and behind them there is a barrier.
  obtain ⟨k, rfl⟩ : ∃ k, i = 2 * k + 1 := by
    rcases Nat.even_or_odd' i with ⟨k, rfl | rfl⟩
    · obtain ⟨P, hf⟩ := h.barriers k o ho
      rw [hf] at hmem
      rcases mem_barrierFlow hmem with ⟨_, hb⟩ | ⟨_, hb⟩ <;> simp at hb
    · exact ⟨k, rfl⟩
  obtain ⟨c, hcall, _, hflow⟩ := h.holds _ o ho
  obtain ⟨ds, hflow⟩ := hflow (by rw [mainProgram_odd hcall]; simp)
  have hne : p ≠ 0 := by
    rintro rfl
    rw [hflow, proj_eager_root] at hmem
    simp at hmem
  have hround : round n (2 * k + 1) o p = .note (.enter (2 * k + 1)) ::
      (ds.map (.get (.udp p)) ++ [.note (.stored (o.buf p)), .note (.leave (2 * k + 1) 0 (o.buf p))]) := by
    rw [round, if_pos hlt, hflow, proj_eager_other hlt hne, collect, List.append_assoc]
    rfl
  cases pre with
  | nil          => simp [hround] at he
  | cons act pre =>
    rw [hround, List.cons_append, List.cons.injEq] at he
    obtain ⟨rfl, he⟩ := he
    obtain ⟨ds₁, ds₂, rfl, rfl, rfl⟩ := collect_split (by simp) he
    obtain ⟨rest, hrest⟩ := round_split (n := n) ho p
    refine ⟨d :: ds₂, [.note (.stored (o.buf p)), .note (.leave (2 * k + 1) 0 (o.buf p))] ++ rest, ?_, ?_⟩
    · rw [hdone, hrest, hround, List.append_assoc, List.append_cancel_left_eq] at hscript
      simpa using hscript
    · have hlast := (List.getElem?_eq_some_iff.mp ho).choose
      have hnot : ¬upto (rounds n 0 os) (2 * k + 2) p <+: a.done p := by
        intro hu
        rw [show 2 * k + 2 = 2 * k + 1 + 1 by omega, upto_succ ho, hdone, List.prefix_append_right_inj] at hu
        have hl := hu.length_le
        simp [hround] at hl
      have hputs := h.root_waits hn hc ra (by have := h.length; omega) hlt hnot p
      have hgets : (upto (rounds n 0 os) (2 * k + 2) 0).flatMap (Act.puts (.udp p)) =
          (upto (rounds n 0 os) (2 * k + 2) p).flatMap (Act.gets (.udp p)) :=
        upto_puts_eq_gets (w := wiring fun _ => 0) (Plan.rounds_drains hc) (Plan.rounds_owned hc) _ (.udp p)
      have hcon : (a.done 0).flatMap (Act.puts (.udp p)) = (a.done p).flatMap (Act.gets (.udp p)) ++ a.queue (.udp p) :=
        State.Conserves.start.reaches (Plan.script_owned hc) ra (.udp p)
      rw [hgets, show 2 * k + 2 = 2 * k + 1 + 1 by omega, upto_succ ho, hcon, hdone, hround] at hputs
      have hg (ds : List Bytes) : (ds.map fun d => (.get (.udp p) d : Process.Act Note)).flatMap
          (Act.gets (.udp p)) = ds := by simp [List.flatMap_map, Act.gets]
      simp only [List.flatMap_append, List.flatMap_cons, List.flatMap_nil, List.length_append, hg, Act.gets,
        List.length_nil, List.length_cons, List.nil_append] at hputs ⊢
      omega

end Plans

theorem note_mem_resembles {es : List (Event Note)} {t : List (Process.Act Note)} {e : Note}
    (h : List.Forall₂ (Resembles μ r) es t) : .note e ∈ es ↔ .note e ∈ t := by
  induction h
  case nil => simp
  case cons he _ hi =>
    rw [List.mem_cons, List.mem_cons, hi]
    rcases he with he | ⟨d, d', rfl, rfl⟩
    · cases he <;> simp
    · simp

theorem main_measured_eager (f : Forwarder) (garbage : Nat → Mem) (hn : 2 ≤ n) (hN : 2 ≤ N)
    (hl : mpiHeader + N < 2 ^ 31) (w : Int) {s : Net Note}
    (h : Net.Reaches (lossless n f) (mainNetwork n garbage N .ringXdpEager w) s) : Measured f n N w.toNat s := by
  obtain ⟨os, y, hs, hf⟩ := exists_schedule (tolerates_follows (lossless n f)) (by omega) .ringXdpEager w.toNat
    (fun i c P b hm hP hb => exists_serves_eager f hn hl hP hb w.toNat hm)
    (Plan.ranks_ranked n garbage) (startBuf_marked garbage hN)
  have hcond : ∀ o ∈ os, o.Conducted n fun _ => 0 := fun o ho => by
    obtain ⟨i, ho⟩ := List.mem_iff_getElem?.mp ho
    obtain ⟨c, _, hq, _⟩ := hs.holds i o ho
    exact hq
  have hre : Reordered (lossless n f) (fun _ => .ret ()) (mainNetwork n garbage N .ringXdpEager w)
      (.start (Plan.script n os)) := by
    apply Reordered.start
    intro r
    by_cases hr : r < n
    case pos =>
      rw [if_pos hr, mainChild_eq, mainBuffer_eq _ hN]
      exact (hf r hr).map rfl
    case neg =>
      rw [if_neg hr, Plan.script_idle (by omega)]
      exact .of_performs .refl (by simp)
  have howned := Plan.script_owned hcond
  have hcomp := Plan.script_completes hcond
  have hall : Settles (wiring fun _ => 0) (.start (Plan.script n os)) := fun p => by
    have hp := upto_puts_eq_gets (w := wiring fun _ => 0) (Plan.rounds_drains hcond (i := 0)) (Plan.rounds_owned hcond)
      (rounds n 0 os).length (.udp p)
    rw [upto_length, upto_length] at hp
    exact ⟨rfl, hp⟩
  obtain ⟨a, ra, hre⟩ := hre.reaches hall .start (fun _ ra => hs.phased hn hcond ra) howned
    (hcomp.agrees howned .start) (fun _ => trivial) (fun _ => rfl) rfl h
  exact hs.measured hn hcond ra (fun r e => note_mem_resembles (hre.events r)) (fun r _ => hre.todo_of_ended)
    (hre.not_stuck (fun _ => rfl) (fun _ => trivial) (hcomp.reaches howned ra) n)

-- Whatever broadcast the benchmark is for, in every run over a network that delays and reorders datagrams: messages of
-- several datagrams need the one that nobody acknowledges.
theorem main_measured (f : Forwarder) (garbage : Nat → Mem) (algo : Bcast) (w : Int) (hn : 2 ≤ n) (hN : 2 ≤ N)
    (hl : mpiHeader + N ≤ maxPayload ∨ algo = .ringXdpEager ∧ mpiHeader + N < 2 ^ 31) :
    ∀ s, Net.Reaches (lossless n f) (mainNetwork n garbage N algo w) s → Measured f n N w.toNat s := by
  intro s h
  by_cases ha : algo = .ringXdpEager
  case pos =>
    subst ha
    refine main_measured_eager f garbage hn hN ?_ w h
    rcases hl with hl | ⟨_, hl⟩
    · exact Nat.lt_of_le_of_lt hl (by decide)
    · exact hl
  case neg =>
    refine main_measured_acknowledged f garbage hn ha hN ?_ w h
    rcases hl with hl | ⟨he, _⟩
    · exact hl
    · exact absurd he ha

-- A run in which the last of three ranks has left the barrier before the root, takes the three datagrams of the
-- broadcast in another order, and leaves it before rank 1 has entered it.
set_option maxRecDepth 20000 in
theorem main_measured_large : ∃ s, Left 1 (s.events 2) ∧ (s.udp 1).length = 3 ∧ Measured .id 3 4000 2 s := by
  have ⟨s, y, hs, hu, ht⟩ : ∃ s y, [Net.Label.run 2, .run 0, .run 0, .run 1, .run 1, .run 1, .run 2, .run 2, .run 2,
      .run 0, .run 0, .run 0, .run 0, .run 0, .run 0, .run 0, .run 2, .take 2 2, .take 2 0, .take 2 0, .run 2,
      .run 2].foldlM (Net.step (lossless 3 .id)) (mainNetwork 3 (fun _ _ => 0) 4000 .ringXdpEager 2) = some s ∧
      (s.udp 1).length = 3 ∧ s.trace[21]? = some (2, .note (.leave 1 0 y)) := ⟨_, _, rfl, rfl, rfl⟩
  refine ⟨s, ?_, hu, main_measured .id (fun _ _ => 0) .ringXdpEager 2 (N := 4000) (by decide) (by decide)
    (.inr ⟨rfl, by decide⟩) s (Net.reaches_of_steps hs)⟩
  exact ⟨0, y, List.mem_filterMap.mpr ⟨_, List.mem_of_getElem? ht, rfl⟩⟩

end Mpi
