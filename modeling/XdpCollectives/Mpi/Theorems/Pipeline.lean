import XdpCollectives.Mpi.Theorems.Doubled

-- Broadcasts one after the other, which nobody acknowledges.
namespace Mpi

open Memory Wire Process Script

def eagers (root : Nat) (counts : List Nat) : List Call :=
  counts.map fun (count : Nat) => .bcast .ringXdpEager count .char root

-- Every call ends with the message of the root, and has taken its datagrams and no others, and there is always a
-- rank that can go on.
structure Pipelined (f : Forwarder) (n root : Nat) (counts : List Nat) (bufs : Nat → Nat → Mem) (s : Net Note) :
    Prop where
  returns  : ∀ r < n, ∀ k (count : Nat) ret buf, counts[k]? = some count → .note (.leave k ret buf) ∈ s.events r →
    ret = 0 ∧ buf.read 0 count = (bufs root k).read 0 count ∧ ∀ j, count ≤ j → buf j = bufs r k j
  consumes : ∀ r < n, r ≠ root → ∀ k, Left k (s.events root) → Left k (s.events r) →
    taken (during opens k (s.events r)) = (emitted (during opens k (s.events root))).map (f.copy r)
  proceeds : ¬s.StuckInOrder (lossless n f) n

variable {n root count i r : Nat} {f : Forwarder} {P : Nat → ProcessInfo} {m b : Nat → Mem} {ds : List Bytes}

theorem mem_others : r ∈ others n root ↔ r < n ∧ r ≠ root := by
  simp [others]

-- The root sends all datagrams of a message, and then every other rank receives them.
def collect (r : Nat) (ds : List Bytes) (buf : Mem) : List (Process.Act Note) :=
  ds.map (.get (.udp r)) ++ [.note (.stored buf)]

def eagerFlow (n root : Nat) (ds : List Bytes) (b : Nat → Mem) : List (Nat × Process.Act Note) :=
  tag root (ds.map fun d => .put ((others n root).map fun r => (.udp r, d))) ++
    (others n root).flatMap fun r => tag r (collect r ds (b r))

theorem others_nodup : (others n root).Nodup :=
  List.nodup_range.filter _

theorem proj_eager_root :
    proj root (eagerFlow n root ds b) = ds.map fun d => .put ((others n root).map fun r => (.udp r, d)) := by
  rw [eagerFlow, proj_append, proj_tag, if_pos rfl, proj_each others_nodup, if_neg (by simp [mem_others]),
    List.append_nil]

theorem proj_eager_other (hr : r < n) (hne : r ≠ root) :
    proj r (eagerFlow n root ds b) = collect r ds (b r) := by
  rw [eagerFlow, proj_append, proj_tag, if_neg (Ne.symm hne), proj_each others_nodup,
    if_pos (mem_others.mpr ⟨hr, hne⟩), List.nil_append]

theorem proj_eager_idle (hroot : root < n) (hr : n ≤ r) : proj r (eagerFlow n root ds b) = [] := by
  rw [eagerFlow, proj_append, proj_tag, if_neg (by omega), proj_each others_nodup,
    if_neg fun h => by have := (mem_others.mp h).left; omega]
  rfl

theorem eager_flow (n root : Nat) (ds : List Bytes) (b : Nat → Mem) :
    Flow (fun _ => []) (eagerFlow n root ds b) fun _ => [] := by
  have h₁ := scatter_flow (l := others n root) others_nodup (fun _ => []) root ds
  obtain ⟨q, h₂, ha, hn⟩ := Flow.independent (l := others n root) others_nodup (fun r c => c = .udp r)
    (fun _ => ds) (fun _ _ => []) (g := fun r => tag r (collect r ds (b r)))
    (q := fun c => [] ++ if c ∈ (others n root).map Chan.udp then ds else [])
    (fun r _ s _ hne c hr hs => by
      subst hr
      exact hne (Chan.udp.inj hs))
    (fun r _ q hq => by
      have h := Flow.gets ds [] (E := Note) (c := .udp r) (q := q) r (by simpa using hq _ rfl)
      refine ⟨Function.update q (.udp r) [], ?_, fun c hc => ?_, fun c hc => Function.update_of_ne hc _ _⟩
      · rw [collect, tag, List.map_append]
        exact h.append (.note _ r (.stored (b r)))
      · rw [hc, Function.update_self])
    (fun r hr c hc => by
      subst hc
      simp [hr])
  have hq : q = fun _ => [] := by
    funext c
    by_cases hc : ∃ r ∈ others n root, c = .udp r
    case pos =>
      obtain ⟨r, hr, hc⟩ := hc
      exact ha r hr c hc
    case neg =>
      rw [hn c fun r hr he => hc ⟨r, hr, he⟩, if_neg, List.append_nil]
      intro hm
      obtain ⟨r, hr, he⟩ := List.mem_map.mp hm
      exact hc ⟨r, hr, he.symm⟩
  exact h₁.append (hq ▸ h₂)

theorem eager_owned (p : Nat) : ∀ a ∈ proj p (eagerFlow n root ds b), a.OwnedBy (wiring fun _ => root) p := by
  intro a ha
  by_cases hp : p = root
  case pos =>
    subst hp
    rw [proj_eager_root] at ha
    have ⟨d, _, he⟩ := List.mem_map.mp ha
    rw [← he]
    intro o ho
    have ⟨r, _, he⟩ := List.mem_map.mp ho
    rw [← he]
    rfl
  case neg =>
    by_cases hn : p < n
    case pos =>
      rw [proj_eager_other hn hp, collect] at ha
      rcases List.mem_append.mp ha with ha | ha
      · have ⟨d, _, he⟩ := List.mem_map.mp ha
        rw [← he]
        rfl
      · rw [List.mem_singleton.mp ha]
        trivial
    case neg =>
      rw [eagerFlow, proj_append, proj_tag, if_neg (Ne.symm hp), proj_each others_nodup,
        if_neg fun h => hn (mem_others.mp h).left] at ha
      contradiction

theorem eager_quiet (h : .note e ∈ proj r (eagerFlow n root ds b)) : e = .stored (b r) := by
  rw [eagerFlow, proj_append, proj_tag, proj_each others_nodup, List.mem_append] at h
  rcases h with h | h
  · split at h <;> simp at h
  · split at h <;> simp [collect] at h
    exact h

section Calls

variable (hn : 2 ≤ n) (hroot : root < n) (hP : Ranked n P) (h0 : 0 < count) (hl : mpiHeader + count < 2 ^ 31)
include hP h0 hl

-- What a rank has in its buffer after the call.
def eagerBuf (root count : Nat) (m : Nat → Mem) (r : Nat) : Mem :=
  if r = root then m root else delivered (m root) (m r) count

variable (f root m) in
theorem mpiRecvNoAck_collect (dest : Nat) (tag : Int) (collective : MPICollective) (hr : r < n) :
    ∃ p', p'.rank = r ∧ p'.size = n ∧ Performs (lossless n f) r (mpiRecvNoAck (P r) (m r) count .char (P r).prev)
      (collect r (datagrams (P root) (m root) 1 count .char root dest tag collective)
        (delivered (m root) (m r) count))
      (.ret (count, delivered (m root) (m r) count, p')) := by
  obtain ⟨hrank, hsize⟩ := hP r hr
  have hlt : (P r).prev < (P r).size := Nat.mod_lt _ (by omega)
  refine ⟨(P r).countId (P r).prev r, hrank, hsize, ?_⟩
  by_cases h1 : Single 1 count
  case pos =>
    have hb : Sendable 1 count := ⟨h0, .inr ⟨rfl, by simp only [mpiHeader] at hl; omega⟩⟩
    obtain ⟨d, h, hd, hca, _⟩ := datagrams_single root .char (m root) tag collective (p := P root) (r := dest) rfl hb h1
    have hrecv := mpiRecvNoAck_performs .char (m r) (μ := lossless n f) (p := P r) (r := (P r).prev) hlt rfl rfl h1
      (f.same _ _) hca (payload_length (by simp [ElementSize]))
    rw [stored_eq, hrank] at hrecv
    rw [hd]
    exact hrecv
  case neg =>
    have hc : maxPayload < mpiHeader + count := by
      by_contra hle
      exact h1 ⟨h0, by omega⟩
    have hrecv := mpiRecvNoAck_gathered (P root) (P r).prev root dest (m r) (m root) tag collective
      (μ := lossless n f) (p := P r) rfl (f.same _) hc hl hlt (.of_perm h0 rfl (.refl _))
    rw [gathered_all h0 fun i hi => List.mem_range.mpr hi, hrank] at hrecv
    rw [collect, datagrams_fragments hc, List.map_map]
    exact hrecv

include hn hroot

variable (f m) in
theorem eager_performs : ∃ (ds : List Bytes) (o : Outcome), o.flow = eagerFlow n root ds o.buf ∧
    o.buf = eagerBuf root count m ∧ Ranked n o.proc ∧
    ∀ r < n, Performs (lossless n f) r (mpiBcastRingXdpEager (P r) (m r) count .char root) (proj r o.flow)
      (.ret (0, o.buf r, o.proc r)) := by
  let next := (root + 1) % n
  have hlt : next < n := Nat.mod_lt _ (by omega)
  have hne : next ≠ root := Cycle.add_mod_ne hroot Nat.one_pos hn
  have hs : Sendable 1 count := ⟨h0, .inr ⟨rfl, by simp only [mpiHeader] at hl; omega⟩⟩
  let ds := datagrams (P root) (m root) 1 count .char root next 1 .bcastRing
  have hrecv r : ∃ p', r < n → p'.rank = r ∧ p'.size = n ∧
      Performs (lossless n f) r (mpiRecvNoAck (P r) (m r) count .char (P r).prev)
        (collect r ds (delivered (m root) (m r) count)) (.ret (count, delivered (m root) (m r) count, p')) := by
    by_cases hr : r < n
    case pos =>
      obtain ⟨p', h⟩ := mpiRecvNoAck_collect root f m hP h0 hl next 1 .bcastRing hr
      exact ⟨p', fun _ => h⟩
    case neg => exact ⟨P r, fun h => absurd h hr⟩
  choose p' hrecv using hrecv
  let o : Outcome := {
    flow   := eagerFlow n root ds (eagerBuf root count m)
    buf    := eagerBuf root count m
    proc r := if r = root then (P root).countId root next else p' r }
  refine ⟨ds, o, rfl, rfl, fun r hr => ?_, fun r hr => ?_⟩
  · simp only [o]
    split
    case isTrue he  => exact he ▸ hP root hroot
    case isFalse he => exact ⟨(hrecv r hr).left, (hrecv r hr).right.left⟩
  · by_cases he : r = root
    case pos =>
      subst he
      obtain ⟨hrank, hsize⟩ := hP r hr
      have hnext : (P r).next = next := by rw [ProcessInfo.next, hrank, hsize]
      have hsend := _mpiSend_performs r .char (m r) 1 .bcastRing (μ := lossless n f) (p := P r) (r := next)
        (by omega) (by omega) (by omega) rfl hs
      have hm : ds.map (fun d => (.put ((lossless n f).outs r next d) : Process.Act Note)) =
          ds.map fun d => .put ((others n r).map fun q => (.udp q, d)) := List.map_congr_left fun d hd => by
        rw [outs_others (.inl rfl) (datagrams_collective hd)]
      rw [hrank, hm] at hsend
      simp only [o, proj_eager_root, eagerBuf, if_true]
      rw [mpiBcastRingXdpEager, if_pos hrank, hnext]
      exact hsend.map rfl
    case neg =>
      obtain ⟨hrank, _⟩ := hP r hr
      simp only [o, proj_eager_other hr he, eagerBuf, if_neg he]
      rw [mpiBcastRingXdpEager, if_neg (by omega)]
      exact (hrecv r hr).right.right.map (if_neg (by simp))

end Calls

-- What is known of the calls of a run.
structure Streams (n root count : Nat) (m : Nat → Mem) (o : Outcome) : Prop where
  flow : ∃ ds, o.flow = eagerFlow n root ds o.buf
  buf  : o.buf = eagerBuf root count m

variable (bufs : Nat → Nat → Mem) (cs : List Call) in
theorem exists_streams {counts : List Nat} (f : Forwarder) (hn : 2 ≤ n) (hroot : root < n) (hP : Ranked n P)
    (hc : ∀ count ∈ counts, 0 < count ∧ mpiHeader + count < 2 ^ 31) :
    ∃ os P', os.length = counts.length ∧ Ranked n P' ∧
      (∀ r < n, Performs (lossless n f) r (performCalls (bufs r) i (eagers root counts ++ cs) (P r))
        ((rounds n i os).map (· r)).flatten (performCalls (bufs r) (i + counts.length) cs (P' r))) ∧
      ∀ j count, counts[j]? = some count → ∃ o, os[j]? = some o ∧ Streams n root count (fun r => bufs r (i + j)) o := by
  induction counts generalizing i P with
  | nil => exact ⟨[], P, rfl, hP, fun _ _ => .refl, by simp⟩
  | cons count counts hi =>
    obtain ⟨h0, hl⟩ := hc count List.mem_cons_self
    obtain ⟨ds, o, hflow, hbuf, hP', ho⟩ := eager_performs f (fun r => bufs r i) hn hroot hP h0 hl
    obtain ⟨os, P'', hlen, hP'', hp, hs⟩ := hi (i := i + 1) hP' fun c hm => hc c (List.mem_cons_of_mem _ hm)
    refine ⟨o :: os, P'', by rw [List.length_cons, List.length_cons, hlen], hP'', fun r hr => ?_, fun j c hj => ?_⟩
    · rw [rounds, List.map_cons, List.flatten_cons, List.length_cons, Nat.add_comm counts.length, ← Nat.add_assoc]
      exact round_performs bufs _ hr (ho r hr) (hp r hr)
    · cases j with
      | zero   =>
        obtain rfl := Option.some.inj hj
        exact ⟨o, rfl, ⟨ds, hflow⟩, hbuf⟩
      | succ j =>
        obtain ⟨o', ho', hs'⟩ := hs j c hj
        rw [Nat.add_right_comm, Nat.add_assoc] at hs'
        exact ⟨o', ho', hs'⟩

theorem Streams.conducted {o : Outcome} (h : Streams n root count m o) (hroot : root < n) :
    o.Conducted n fun _ => root := by
  have ⟨ds, hf⟩ := h.flow
  refine ⟨fun r hr => ?_, fun r e he => ?_, ?_, fun p => ?_⟩
  · rw [hf]
    exact proj_eager_idle hroot hr
  · rw [hf] at he
    exact ⟨_, eager_quiet he⟩
  · rw [hf]
    exact eager_flow n root ds o.buf
  · rw [hf]
    exact eager_owned p

section Runs

variable {counts : List Nat} {garbage : Nat → Mem} {bufs : Nat → Nat → Mem} {s : Net Note} {os : List Outcome}
  {a : Process.Plan Note}

theorem mem_streams (hlen : os.length = counts.length) {Q : Nat → Nat → Outcome → Prop}
    (hs : ∀ j count, counts[j]? = some count → ∃ o, os[j]? = some o ∧ Q j count o) (ho : os[j]? = some o) :
    ∃ count, counts[j]? = some count ∧ Q j count o := by
  have hj : j < counts.length := by
    rw [← hlen]
    exact (List.getElem?_eq_some_iff.mp ho).choose
  have ⟨o', ho', hq⟩ := hs j _ (List.getElem?_eq_getElem hj)
  rw [ho, Option.some_inj] at ho'
  exact ⟨_, List.getElem?_eq_getElem hj, ho' ▸ hq⟩

theorem streams_conducted {m : Nat → Nat → Mem} (hroot : root < n) (hlen : os.length = counts.length)
    (hs : ∀ k count, counts[k]? = some count → ∃ o, os[k]? = some o ∧ Streams n root count (m k) o) :
    ∀ o ∈ os, o.Conducted n fun _ => root := by
  intro o ho
  have ⟨j, hj⟩ := List.mem_iff_getElem?.mp ho
  have ⟨_, _, h⟩ := mem_streams hlen hs hj
  exact h.conducted hroot

theorem eagerBuf_read (h0 : 0 < count) (hm : m root (count - 1) = 0) (r : Nat) :
    (eagerBuf root count m r).read 0 count = (m root).read 0 count := by
  rw [eagerBuf]
  split
  case isTrue  => rfl
  case isFalse => exact (delivered_read_iff h0).mpr hm

theorem eagerBuf_outside (h0 : 0 < count) (h : count ≤ j) (r : Nat) : eagerBuf root count m r j = m r j := by
  rw [eagerBuf]
  split
  case isTrue he => rw [he]
  case isFalse   => exact delivered_outside h0 h

-- The root and another rank in the same call.
theorem streams_consumes {o : Outcome} (hroot : root < n) (h : Streams n root count m o) (hr : r < n) (hne : r ≠ root)
    {es es' : List (Event Note)}
    (he : List.Forall₂ (Matches (lossless n f) root) es (round n i o root).tail)
    (he' : List.Forall₂ (Matches (lossless n f) r) es' (round n i o r).tail) :
    taken es' = (emitted es).map (f.copy r) := by
  have ⟨ds, hf⟩ := h.flow
  have hl : others n root ≠ [] := List.ne_nil_of_mem (mem_others.mpr ⟨hr, hne⟩)
  have hg : (ds.map fun d => (.get (.udp r) d : Process.Act Note)).flatMap (Act.gets (.udp r)) = ds := by
    simp [List.flatMap_map, Act.gets]
  rw [round, if_pos hroot, List.tail_cons, hf, proj_eager_root] at he
  rw [taken_eq he', emitted_eq hl he, round, if_pos hr, List.tail_cons, hf, proj_eager_other hr hne, collect,
    List.flatMap_append, List.flatMap_append, hg]
  simp [Act.gets]
  exact fun _ _ => rfl

-- Whatever the sizes of the messages, and however far the root is ahead of the others.
theorem pipelined_of_fits (f : Forwarder) (hn : 2 ≤ n) (hroot : root < n)
    (hc : ∀ count ∈ counts, 0 < count ∧ mpiHeader + count < 2 ^ 31)
    (hlast : ∀ k count, counts[k]? = some count → bufs root k (count - 1) = 0)
    (rs : Net.ReachesInOrder (lossless n f) (network n garbage bufs (eagers root counts)) s) :
    Pipelined f n root counts bufs s := by
  have ⟨os, P', hlen, _, hp, hs⟩ := exists_streams bufs [] (i := 0) f hn hroot (Plan.ranks_ranked n garbage) hc
  simp only [Nat.zero_add] at hs
  have hcond := streams_conducted hroot hlen hs
  have hsim : Sim (lossless n f) (fun _ => .ret ()) (network n garbage bufs (eagers root counts))
      (.start (Plan.script n os)) := Plan.script_performs fun r hr => by
    have := hp r hr
    rwa [List.append_nil] at this
  have howned := Plan.script_owned hcond
  have hcomp := Plan.script_completes hcond
  have ⟨a, ra, hsim⟩ := hsim.reaches_in_order (fun _ => trivial) howned .start (hcomp.agrees howned .start)
    (fun _ => rfl) rfl rs
  refine ⟨fun r hr k count ret buf hk hm => ?_, fun r hr hne k hl hl' => ?_, fun hstuck => ?_⟩
  · have ⟨o, ho, hret, hbuf⟩ := Plan.script_leave hcond <|
      (ra.done_prefix r).subset <| (note_mem_iff (hsim.events r)).mp hm
    have ⟨o', ho', h⟩ := hs k count hk
    obtain rfl : o = o' := Option.some.inj (ho.symm.trans ho')
    have h0 := (hc count (List.mem_of_getElem? hk)).left
    rw [hbuf, h.buf]
    exact ⟨hret, eagerBuf_read (m := fun r => bufs r k) h0 (hlast k count hk) r,
      fun j hj => eagerBuf_outside h0 hj r⟩
  · have ⟨o, ho, hd⟩ := Plan.during_of_left hcond (ra.done_prefix root) (hsim.events root) hroot hl
    have ⟨o', ho', hd'⟩ := Plan.during_of_left hcond (ra.done_prefix r) (hsim.events r) hr hl'
    obtain rfl : o = o' := Option.some.inj (ho.symm.trans ho')
    have ⟨_, _, h⟩ := mem_streams hlen hs ho
    exact streams_consumes hroot h hr hne (hd ▸ during_matches (hsim.events root) k)
      (hd' ▸ during_matches (hsim.events r) k)
  · exact hsim.not_stuck (fun _ => trivial) (hcomp.reaches howned ra) n (Net.Stuck.of_in_order hstuck rfl)

-- A rank that is to receive a message whose length with the header is not an `int` leaves at once.
theorem not_pipelined_of_overflow (f : Forwarder) (garbage : Nat → Mem) (bufs : Nat → Nat → Mem)
    (counts : List Nat) (hn : 2 ≤ n) (hroot : root < n)
    (hc : ∀ count ∈ counts, 0 < count ∧ count < 2 ^ 31) (hl : ¬∀ count ∈ counts, mpiHeader + count < 2 ^ 31) :
    ∃ s, Net.ReachesInOrder (lossless n f) (network n garbage bufs (eagers root counts)) s ∧
      ¬Pipelined f n root counts bufs s := by
  obtain ⟨good, count, rest, he, hgood, hlarge⟩ := exists_first hl
  subst he
  obtain ⟨hpos, hlt⟩ := hc count (by simp)
  have hcs : eagers root (good ++ count :: rest) = eagers root good ++ eagers root (count :: rest) := List.map_append
  obtain ⟨os, P', hlen, hP', hp, hs⟩ := exists_streams bufs (eagers root (count :: rest)) (i := 0) f hn hroot
    (Plan.ranks_ranked n garbage) fun c hm => ⟨(hc c (by simp [hm])).left, hgood c hm⟩
  have hcond := streams_conducted hroot hlen hs
  let k := good.length
  let next := (root + 1) % n
  have hnext : next < n := Nat.mod_lt _ (by omega)
  have hne : next ≠ root := Cycle.add_mod_ne hroot Nat.one_pos hn
  let t (r : Nat) : List (Process.Act Note) :=
    if r = next then [.note (.enter k), .note (.leave k (-1) (bufs next k))] else []
  let x (r : Nat) := performCalls (bufs r) k (eagers root (count :: rest)) (P' r)
  let y (r : Nat) := if r = next then performCalls (bufs r) (k + 1) (eagers root rest) (P' r) else x r
  have ht r (hr : r < n) : Performs (lossless n f) r (x r) (t r) (y r) := by
    by_cases hr : r = next
    case pos =>
      subst hr
      obtain ⟨hrank, _⟩ := hP' next hnext
      simp only [x, y, t, if_true]
      refine .note ?_
      rw [Call.perform, Bcast.perform, mpiBcastRingXdpEager, if_neg (by omega),
        mpiRecvNoAck_overflow _ _ (by omega) hlt]
      exact .note .refl
    case neg =>
      simp only [y, t, if_neg hr]
      exact .refl
  have hx r (hr : r < n) : Performs (lossless n f) r
      (performCalls (bufs r) 0 (eagers root (good ++ count :: rest)) (Plan.ranks n garbage r))
      (Plan.script n os r) (x r) := by
    have := hp r hr
    rwa [Nat.zero_add, ← hcs] at this
  obtain ⟨s, rs, _, _, hev⟩ := Plan.script_extend hcond hx ht (fun r hr => if_neg (by omega)) (g := tag next (t next))
    (fun r => by
      rw [proj_tag]
      by_cases hr : next = r
      case pos => rw [if_pos hr, hr]
      case neg => rw [if_neg hr, show t r = [] from if_neg (Ne.symm hr)])
    (show Flow (fun _ => []) (tag next (t next)) fun _ => [] by
      simp only [t, if_true]
      exact ⟨trivial, trivial, rfl⟩)
  refine ⟨s, rs, fun hpipe => ?_⟩
  have hm : .note (.leave k (-1) (bufs next k)) ∈ s.events next := by
    rw [note_mem_iff (hev next)]
    simp [t]
  obtain ⟨hret, _⟩ := hpipe.returns next hnext k count _ _ (by simp [k]) hm
  contradiction

end Runs

-- Eager broadcasts follow each other safely as long as the length of every message with its header is an `int`.
theorem pipelined_iff {counts : List Nat} {bufs : Nat → Nat → Mem} (f : Forwarder) (garbage : Nat → Mem) (hn : 2 ≤ n)
    (hroot : root < n) (hc : ∀ count ∈ counts, 0 < count ∧ count < 2 ^ 31)
    (hlast : ∀ k count, counts[k]? = some count → bufs root k (count - 1) = 0) :
    (∀ s, Net.ReachesInOrder (lossless n f) (network n garbage bufs (eagers root counts)) s →
      Pipelined f n root counts bufs s) ↔ ∀ count ∈ counts, mpiHeader + count < 2 ^ 31 := by
  constructor
  case mp =>
    intro h
    by_contra hl
    have ⟨s, rs, hs⟩ := not_pipelined_of_overflow f garbage bufs counts hn hroot hc hl
    exact hs (h s rs)
  case mpr =>
    exact fun h s rs => pipelined_of_fits f hn hroot (fun c hm => ⟨(hc c hm).left, h c hm⟩) hlast rs

theorem pipelined_iff_three :
    (∀ s, Net.ReachesInOrder (lossless 3 .id) (network 3 (fun _ _ => 0) (texts 1 4) (eagers 1 [5, 3000, 3])) s →
      Pipelined .id 3 1 [5, 3000, 3] (texts 1 4) s) ↔ ∀ count ∈ [5, 3000, 3], mpiHeader + count < 2 ^ 31 := by
  refine pipelined_iff .id (fun _ _ => 0) (by decide) (by decide) (by decide) fun k count hk => texts_last ?_
  rcases k with _ | _ | _ | k
  · cases hk
    decide
  · cases hk
    decide
  · cases hk
    decide
  · contradiction

theorem not_pipelined_two :
    ¬∀ (n root : Nat) (f : Forwarder) (garbage : Nat → Mem) (counts : List Nat) (bufs : Nat → Nat → Mem) (s : Net Note),
      2 ≤ n → root < n → (∀ count ∈ counts, 0 < count ∧ count < 2 ^ 31) →
      (∀ k count, counts[k]? = some count → bufs root k (count - 1) = 0) →
      Net.ReachesInOrder (lossless n f) (network n garbage bufs (eagers root counts)) s →
      Pipelined f n root counts bufs s := by
  intro h
  have ⟨s, rs, hs⟩ := not_pipelined_of_overflow .id (fun _ _ => 0) (fun _ _ _ => 0) [2 ^ 31 - 1] (n := 2)
    (show 2 ≤ 2 by decide) (show 0 < 2 by decide) (by decide) (by decide)
  exact hs (h 2 0 .id _ _ _ s (by decide) (by decide) (by decide) (fun _ _ _ => rfl) rs)

end Mpi
