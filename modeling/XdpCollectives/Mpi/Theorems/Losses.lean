import XdpCollectives.Mpi.Theorems.Agreement
import XdpCollectives.Mpi.Theorems.RecoveryLaw
import XdpCollectives.Mpi.Theorems.Relays

-- The broadcasts from rank to rank get over the loss of any datagrams, but leave acknowledgements behind that nobody
-- reads.
namespace Mpi

open Memory Wire Process Script

-- Rank `r` has asked the rank above it, and that one has sent the data once more.
structure Repaired (r up : Nat) (data : Bytes) (s : Net Note) : Prop where
  asked    : ∃ m, isNack m ∧ .send up m ∈ s.events r ∧ .recv r m ∈ s.events up
  answered : ∃ h : Header, .send r (h.encode ++ data) ∈ s.events up ∧ .recv up (h.encode ++ data) ∈ s.events r

namespace Relay

variable {t : Cascade} (x : Relay t) {p q r : Nat} {c : Chan} {l : List Nat} {qs : Queues Chan Bytes}

-- Every rank finds what the others have for it in this call.
structure Answered : Prop where
  heard   : ∀ q, x.heard q = if x.lost q then nack t x.P q else ack t x.P q
  given   : ∀ q, x.given q = again t x.P q
  content : ∀ q, x.content q = payload 1 x.count (x.mem (t.above q))

-- Rank `q` gets the data.
def hop (q : Nat) : List (Nat × Process.Act Note) :=
  tag (t.above q) (x.emits q) ++
    if x.lost q then
      tag q [.timeout, .put [(.tcp q (t.above q), (nack t x.P q).encode)]] ++ (tag (t.above q) (x.settles q) ++
        tag q [.get (.tcp (t.above q) q) ((x.given q).encode ++ x.content q), .note (.stored (x.mem q)),
          .put [(.tcp q (t.above q), (ack t x.P q).encode)]])
    else tag q (x.answers q) ++ tag (t.above q) (x.settles q)

def flow : List (Nat × Process.Act Note) :=
  t.order.flatMap x.hop

-- What nobody has read at the end.
def leftover (c : Chan) : List Bytes :=
  match c with
  | .tcp p q => if p < t.n ∧ p ≠ t.root ∧ x.lost p ∧ t.above p = q then [(ack t x.P p).encode] else []
  | .udp _   => []

variable {x}

theorem proj_hop (hq : q < t.n) (hne : q ≠ t.root) (r : Nat) :
    proj r (x.hop q) = if r = q then x.answers q else if r = t.above q then x.deals q else [] := by
  have hup := t.above_ne q hq hne
  by_cases hr : r = q
  case pos =>
    subst hr
    cases hl : x.lost r <;> simp [hop, answers, takes, proj_append, proj_tag, hl, hup]
  case neg =>
    by_cases hr' : r = t.above q
    case pos =>
      subst hr'
      cases hl : x.lost q <;> simp [hop, deals, proj_append, proj_tag, hl, hup, hup.symm]
    case neg => cases hl : x.lost q <;> simp [hop, proj_append, proj_tag, hl, hr, hr', Ne.symm hr, Ne.symm hr']

-- A rank that has the data hands them on.
theorem proj_hops (hl : ∀ q ∈ l, q < t.n ∧ q ≠ t.root) (hr : r ∉ l) :
    proj r (l.flatMap x.hop) = (l.filter (t.above · = r)).flatMap x.deals := by
  induction l with
  | nil => rfl
  | cons q l hi =>
    obtain ⟨⟨hq, hne⟩, hl⟩ := List.forall_mem_cons.mp hl
    obtain ⟨hrq, hr⟩ := not_or.mp (List.mem_cons.not.mp hr)
    rw [List.flatMap_cons, proj_append, proj_hop hq hne, if_neg hrq, hi hl hr]
    by_cases hup : t.above q = r
    case pos => rw [if_pos hup.symm, List.filter_cons_of_pos (by simpa using hup), List.flatMap_cons]
    case neg => rw [if_neg (Ne.symm hup), List.filter_cons_of_neg (by simpa using hup), List.nil_append]

theorem proj_flow (r : Nat) : proj r x.flow = x.script r := by
  have hm : ∀ q ∈ t.order, q < t.n ∧ q ≠ t.root := fun q => (t.mem_order q).mp
  rw [script]
  split
  case isTrue h =>
    obtain ⟨hr, hne⟩ := h
    obtain ⟨l₁, l₂, ho, h₁, h₂, _, hearly, hb⟩ := t.order_split hr hne
    rw [ho] at hm
    have hn : l₁.filter (t.above · = r) = [] := List.filter_eq_nil_iff.mpr fun q hq => by simpa using hearly q hq
    rw [flow, ho, List.flatMap_append, List.flatMap_cons, proj_append, proj_append, proj_hop hr hne, if_pos rfl,
      proj_hops (fun q hq => hm q (List.mem_append_left _ hq)) h₁, hn,
      proj_hops (fun q hq => hm q (List.mem_append_right _ (List.mem_cons_of_mem _ hq))) h₂, hb]
    rfl
  case isFalse h =>
    rw [flow, proj_hops hm fun hr => h ((t.mem_order r).mp hr)]
    rfl

theorem script_idle (hr : t.n ≤ r) : x.script r = [] := by
  have hb : t.below r = [] := Cascade.below_eq_nil fun q hq hne he => by
    have := t.above_lt q hq hne
    omega
  rw [script, if_neg (by omega), hb]
  rfl

-- The request, the answer to it, and the acknowledgement that stays.
theorem repair_flow {up : Nat} (ask parcel ack : Bytes) (m : Mem) (h₁ : qs (.tcp q up) = [])
    (h₂ : qs (.tcp up q) = []) :
    Flow qs (tag q [.timeout, .put [(.tcp q up, ask)]] ++ (tag up [.get (.tcp q up) ask, .put [(.tcp up q, parcel)]] ++
        tag q [.get (.tcp up q) parcel, .note (Note.stored m), .put [(.tcp q up, ack)]]))
      (Function.update qs (.tcp q up) [ack]) := by
  let c₁ : Chan := .tcp q up
  let c₂ : Chan := .tcp up q
  have hask := Flow.puts (E := Note) qs q c₁ [ask]
  have hget := Flow.gets [ask] [] (E := Note) (c := c₁) (q := Function.update qs c₁ [ask]) up (by simp)
  have hmend := Flow.puts (E := Note) qs up c₂ [parcel]
  have htake := Flow.gets [parcel] [] (E := Note) (c := c₂) (q := Function.update qs c₂ [parcel]) q (by simp)
  have hnote := Flow.note qs q (Note.stored m)
  have hack := Flow.puts (E := Note) qs q c₁ [ack]
  have hq₁ : Function.update qs c₁ [] = qs := by rw [← h₁, Function.update_eq_self]
  have hq₂ : Function.update qs c₂ [] = qs := by rw [← h₂, Function.update_eq_self]
  rw [h₁, List.nil_append] at hask hack
  rw [h₂, List.nil_append] at hmend
  rw [Function.update_idem, hq₁] at hget
  rw [Function.update_idem, hq₂] at htake
  have htimeout : Flow (E := Note) qs (tag q [.timeout]) qs := ⟨trivial, rfl⟩
  exact (htimeout.append hask).append ((hget.append hmend).append (htake.append (hnote.append hack)))

-- The hop of a rank, from empty channels.
theorem hop_leaves (ha : x.Answered) (hq : q < t.n) (hne : q ≠ t.root) (hu : qs (.udp q) = [])
    (h₁ : qs (.tcp q (t.above q)) = []) (h₂ : qs (.tcp (t.above q) q) = []) :
    Flow qs (x.hop q) (Function.update qs (.tcp q (t.above q)) (x.leftover (.tcp q (t.above q)))) := by
  rw [hop, settles, ha.heard]
  cases hl : x.lost q with
  | false =>
    have hn : (ack t x.P q).datatype.toNat ≠ MPIDatatype.nack.code := ack_code _ _ _
    have hleft : x.leftover (.tcp q (t.above q)) = [] := by simp [leftover, hl]
    have h := hop_flow (x.data q) [] (x.mem q) (ack t x.P q).encode hu h₁
    rw [Mpi.hop, serve, receipt] at h
    simpa [emits, answers, takes, hl, hn, hleft] using h
  | true  =>
    obtain ⟨d, _, hd, _⟩ := x.data_eq q
    have hn : (nack t x.P q).datatype.toNat = MPIDatatype.nack.code := rfl
    have hleft : x.leftover (.tcp q (t.above q)) = [(ack t x.P q).encode] := by simp [leftover, hl, hq, hne]
    have hemit : Flow qs (tag (t.above q) (x.emits q)) qs := by
      rw [emits, hd, hl]
      exact ⟨trivial, funext fun c => List.append_nil _⟩
    rw [hleft, ha.given, ha.content, if_pos rfl, if_pos rfl, if_pos hn]
    exact hemit.append (repair_flow _ _ _ (x.mem q) h₁ h₂)

-- The channels between a rank and the one above it.
def Own (t : Cascade) (q : Nat) (c : Chan) : Prop :=
  c = .udp q ∨ c = .tcp q (t.above q) ∨ c = .tcp (t.above q) q

theorem own_unique (hp : p < t.n) (hpr : p ≠ t.root) (hq : q < t.n) (hqr : q ≠ t.root) (hne : p ≠ q) (h : Own t p c) :
    ¬Own t q c := by
  have hcycle : t.above p = q → t.above q ≠ p := Cascade.acyclic hp hpr hq hqr
  rcases h with rfl | rfl | rfl <;> rintro (h | h | h) <;>
    simp only [Chan.udp.injEq, Chan.tcp.injEq, reduceCtorEq] at h
  · exact hne h
  · exact hne h.left
  · exact hcycle h.right h.left.symm
  · exact hcycle h.left h.right.symm
  · exact hne h.right

theorem leftover_own (hq : q < t.n) (hne : q ≠ t.root) (hc : Own t q c) :
    Function.update (fun _ => []) (.tcp q (t.above q)) (x.leftover (.tcp q (t.above q))) c = x.leftover c := by
  rcases hc with rfl | rfl | rfl
  · rfl
  · exact Function.update_self ..
  · have hback : Chan.tcp (t.above q) q ≠ .tcp q (t.above q) := fun h => t.above_ne q hq hne (Chan.tcp.inj h).left
    rw [Function.update_of_ne hback, leftover, if_neg]
    rintro ⟨hup, hroot, _, he⟩
    exact Cascade.acyclic hq hne hup hroot rfl he

theorem leftover_foreign (hc : ∀ q ∈ t.order, ¬Own t q c) : x.leftover c = [] := by
  cases c with
  | udp q   => rfl
  | tcp p q =>
    rw [leftover, if_neg]
    rintro ⟨hp, hne, _, rfl⟩
    exact hc p ((t.mem_order p).mpr ⟨hp, hne⟩) (.inr (.inl rfl))

-- All ranks get the data, and there is one acknowledgement too many from each that has lost the datagram.
theorem flow_leaves (ha : x.Answered) : Flow (fun _ => []) x.flow x.leftover := by
  have hm : ∀ q ∈ t.order, q < t.n ∧ q ≠ t.root := fun q => (t.mem_order q).mp
  obtain ⟨q', hf, hown, hout⟩ := Flow.independent t.nodup (Own t) (fun _ => [])
    (fun q => Function.update (fun _ => []) (.tcp q (t.above q)) (x.leftover (.tcp q (t.above q)))) (g := x.hop)
    (fun p hp q hq hne c => own_unique (hm p hp).left (hm p hp).right (hm q hq).left (hm q hq).right hne)
    (fun q hq qs hqs => by
      obtain ⟨hlt, hne⟩ := hm q hq
      refine ⟨_, hop_leaves ha hlt hne (hqs _ (.inl rfl)) (hqs _ (.inr (.inl rfl))) (hqs _ (.inr (.inr rfl))),
        fun c hc => ?_, fun c hc => ?_⟩
      · by_cases he : c = .tcp q (t.above q)
        case pos => rw [he, Function.update_self, Function.update_self]
        case neg => rw [Function.update_of_ne he, Function.update_of_ne he, hqs c hc]
      · exact Function.update_of_ne (fun he => hc (.inr (.inl he))) _ _)
    (q := fun _ => []) fun _ _ _ _ => rfl
  have he : q' = x.leftover := by
    funext c
    by_cases hc : ∃ q ∈ t.order, Own t q c
    case pos =>
      obtain ⟨q, hq, hc⟩ := hc
      rw [hown q hq c hc, leftover_own (hm q hq).left (hm q hq).right hc]
    case neg =>
      have hc : ∀ q ∈ t.order, ¬Own t q c := fun q hq ho => hc ⟨q, hq, ho⟩
      rw [hout c hc, leftover_foreign hc]
  exact he ▸ hf

def outcome (x : Relay t) : Outcome where
  flow := x.flow
  buf  := x.mem
  proc := ends t x.P

theorem proj_outcome (r : Nat) : proj r x.outcome.flow = x.script r :=
  proj_flow r

theorem outcome_idle (hr : t.n ≤ r) : proj r x.outcome.flow = [] :=
  (proj_outcome r).trans (script_idle hr)

theorem outcome_quiet (he : .note e ∈ proj r x.outcome.flow) : ∃ buf, e = .stored buf := by
  rw [proj_outcome, script, List.mem_append, List.mem_flatMap] at he
  rcases he with he | ⟨q, _, he⟩
  · split at he
    · rw [answers, takes] at he
      split at he <;> simp at he <;> exact ⟨_, he⟩
    · contradiction
  · rw [deals, emits, settles] at he
    split at he <;> simp at he

theorem script_owned (r : Nat) : ∀ a ∈ x.script r, a.OwnedBy (wiring t.above) r := by
  intro a ha
  rw [script, List.mem_append, List.mem_flatMap] at ha
  rcases ha with ha | ⟨q, hq, ha⟩
  · split at ha
    · rw [answers, takes] at ha
      split at ha
      · simp only [List.cons_append, List.nil_append, List.mem_cons, List.not_mem_nil, or_false] at ha
        rcases ha with rfl | rfl | rfl | rfl | rfl <;> simp [Act.OwnedBy, wiring]
      · simp only [List.mem_append, List.mem_map, List.mem_singleton] at ha
        rcases ha with (⟨d, _, rfl⟩ | rfl) | rfl <;> simp [Act.OwnedBy, wiring]
    · contradiction
  · obtain ⟨_, _, rfl⟩ := Cascade.mem_below.mp hq
    rw [deals, emits, settles, List.mem_append, List.mem_map] at ha
    rcases ha with ⟨d, _, rfl⟩ | ha
    · split <;> simp [Act.OwnedBy, wiring]
    · split at ha
      · simp only [List.mem_cons, List.not_mem_nil, or_false] at ha
        rcases ha with rfl | rfl <;> simp [Act.OwnedBy, wiring]
      · rw [List.mem_singleton.mp ha]
        rfl

theorem round_owned : (State.start (round t.n 0 x.outcome)).Owned (wiring t.above) := by
  intro r a ha
  have ha : a ∈ round t.n 0 x.outcome r := ha
  rw [round] at ha
  split at ha
  · simp only [List.mem_cons, List.mem_append, List.not_mem_nil, or_false] at ha
    rcases ha with rfl | ha | rfl
    · trivial
    · exact script_owned r a (proj_outcome r ▸ ha)
    · trivial
  · contradiction

theorem gets_udp (q : Nat) :
    ((round t.n 0 x.outcome q).flatMap (Act.gets (.udp q))).length ≤ if x.lost q then 0 else 1 := by
  by_cases hq : q < t.n
  case pos =>
    have hdeals : ((t.below q).flatMap x.deals).flatMap (Act.gets (.udp q)) = [] := by
      rw [List.flatMap_assoc, List.flatMap_eq_nil_iff]
      intro p _
      rw [deals, emits, settles]
      split <;> simp [Act.gets]
    rw [round_flatMap (fun _ => rfl) 0 hq, proj_outcome, script, List.flatMap_append, hdeals, List.append_nil]
    split
    · obtain ⟨d, _, hd, _⟩ := x.data_eq q
      cases hl : x.lost q <;> simp [answers, takes, hl, hd, Act.gets]
    · exact Nat.zero_le _
  case neg =>
    rw [round, if_neg hq]
    exact Nat.zero_le _

section Runs

variable {a : Process.Plan Note}

theorem completes (ha : x.Answered) : (State.start (round t.n 0 x.outcome)).Completes := by
  obtain ⟨_, hp, hg⟩ := round_flow (fun _ => outcome_idle) (show Flow _ x.outcome.flow _ from flow_leaves ha) 0
  exact hg.completes hp

-- What is put into a channel is got from it, but for what is left.
theorem balance (ha : x.Answered) (c : Chan) :
    (round t.n 0 x.outcome ((wiring t.above).writer c)).flatMap (Act.puts c) =
      (round t.n 0 x.outcome ((wiring t.above).reader c)).flatMap (Act.gets c) ++ x.leftover c := by
  obtain ⟨_, hp, hg⟩ := round_flow (fun _ => outcome_idle) (show Flow _ x.outcome.flow _ from flow_leaves ha) 0
  exact hg.puts_eq_gets hp round_owned c

theorem orderly (ha : x.Answered) (f : Forwarder) (hr : (State.start (round t.n 0 x.outcome)).Reaches a) :
    Orderly (medium t.n f x.lost) a := by
  intro q
  have hc := State.Conserves.start.reaches round_owned hr (.udp q)
  obtain ⟨u, hu⟩ := hr.done_prefix (t.above q)
  have hb := balance ha (.udp q)
  have hg := gets_udp (x := x) q
  have hb : (round t.n 0 x.outcome (t.above q)).flatMap (Act.puts (.udp q)) =
    (round t.n 0 x.outcome q).flatMap (Act.gets (.udp q)) ++ [] := hb
  have hc : (a.done (t.above q)).flatMap (Act.puts (.udp q)) =
    (a.done q).flatMap (Act.gets (.udp q)) ++ a.queue (.udp q) := hc
  rw [← hu, List.flatMap_append, hc, List.append_nil] at hb
  have hl := congrArg List.length hb
  rw [List.length_append, List.length_append] at hl
  show (a.queue (.udp q)).length ≤ if x.lost q then 0 else 1
  omega

theorem not_isNack_ack : ¬isNack (ack t x.P r).encode := by
  have h := Header.decode_encode (ack t x.P r) []
  rw [List.append_nil] at h
  simp only [isNack, h, decide_eq_true_eq]
  exact ack_code _ _ _

theorem isNack_nack : isNack (nack t x.P r).encode := by
  have h := Header.decode_encode (nack t x.P r) []
  rw [List.append_nil] at h
  simp only [isNack, h, decide_eq_true_eq]
  rfl

theorem not_isNack_again (data : Bytes) : ¬isNack ((again t x.P r).encode ++ data) := by
  simp only [isNack, Header.decode_encode, decide_eq_true_eq]
  exact (by decide : (BitVec.ofNat 32 MPIDatatype.char.code).toNat ≠ MPIDatatype.nack.code)

-- The request of a rank that has lost the datagram is the only one.
theorem isNack_put (hr : r < t.n) (h : .put [(.tcp r q, m)] ∈ round t.n 0 x.outcome r) (hm : isNack m) :
    r ≠ t.root ∧ x.lost r ∧ q = t.above r ∧ m = (nack t x.P r).encode := by
  rw [round, if_pos hr, proj_outcome, script] at h
  simp only [List.mem_cons, reduceCtorEq, List.mem_append, List.not_mem_nil, or_false, false_or,
    List.mem_flatMap] at h
  rcases h with h | ⟨p, _, h⟩
  · split at h
    · rw [answers, takes] at h
      split at h
      case isTrue hlt hl =>
        simp at h
        rcases h with ⟨rfl, rfl⟩ | ⟨rfl, rfl⟩
        · exact ⟨hlt.right, hl, rfl, rfl⟩
        · exact absurd hm not_isNack_ack
      case isFalse =>
        simp at h
        exact absurd (h.right ▸ hm) not_isNack_ack
    · contradiction
  · rw [deals, emits, settles] at h
    simp only [List.mem_append, List.mem_map, List.mem_cons, reduceCtorEq, false_or] at h
    rcases h with ⟨d, _, h⟩ | h
    · split at h <;> simp at h
    · split at h
      · simp at h
        exact absurd (h.right ▸ hm) (not_isNack_again _)
      · contradiction

-- Over the connection a rank sends to the rank below it what concerns that rank only.
theorem puts_emits (q : Nat) : (x.emits q).flatMap (Act.puts (.tcp p r)) = [] := by
  rw [emits]
  cases x.lost q <;> simp [Act.puts, outsOn]

theorem puts_deals (hl : r ∉ l) : (l.flatMap x.deals).flatMap (Act.puts (.tcp p r)) = [] := by
  rw [List.flatMap_assoc, List.flatMap_eq_nil_iff]
  intro q hq
  have hqr : q ≠ r := fun he => hl (he ▸ hq)
  rw [deals, List.flatMap_append, puts_emits, settles]
  split <;> simp [Act.puts, outsOn, hqr]

theorem puts_answers (hp : t.above p ≠ r) : (x.answers p).flatMap (Act.puts (.tcp p r)) = [] := by
  rw [answers, takes]
  cases x.lost p <;> simp [Act.puts, outsOn, hp]

theorem below_split (hr : r < t.n) (hne : r ≠ t.root) : ∃ l₁ l₂, t.below (t.above r) = l₁ ++ r :: l₂ ∧ r ∉ l₁ := by
  obtain ⟨l₁, l₂, hb⟩ := List.append_of_mem (Cascade.mem_below.mpr ⟨hr, hne, rfl⟩ : r ∈ t.below (t.above r))
  have hn := t.below_nodup (p := t.above r)
  rw [hb, List.nodup_append] at hn
  exact ⟨l₁, l₂, hb, fun h => hn.right.right r h r List.mem_cons_self rfl⟩

theorem deals_lost (ha : x.Answered) (hl : x.lost r) : x.deals r =
    x.emits r ++ [.get (.tcp r (t.above r)) (nack t x.P r).encode] ++
      [.put [(.tcp (t.above r) r, (again t x.P r).encode ++ payload 1 x.count (x.mem (t.above r)))]] := by
  have hn : (nack t x.P r).datatype.toNat = MPIDatatype.nack.code := rfl
  rw [deals, settles, ha.heard, if_pos hl, if_pos hn, List.append_assoc]
  rfl

-- A rank that has got the data once more has been heard before.
theorem mended (ha : x.Answered) (hr : (State.start (round t.n 0 x.outcome)).Reaches a) (hlt : r < t.n)
    (hne : r ≠ t.root) (hl : x.lost r) (hd : a.done r = round t.n 0 x.outcome r) :
    .get (.tcp r (t.above r)) (nack t x.P r).encode ∈ a.done (t.above r) ∧
      .put [(.tcp (t.above r) r, (again t x.P r).encode ++ payload 1 x.count (x.mem (t.above r)))] ∈
        a.done (t.above r) := by
  let u := t.above r
  let c : Chan := .tcp u r
  let parcel : Bytes := (again t x.P r).encode ++ payload 1 x.count (x.mem u)
  have hu : u < t.n := t.above_lt r hlt hne
  obtain ⟨l₁, l₂, hb, hr₁⟩ := below_split hlt hne
  let own : List (Process.Act Note) := if u < t.n ∧ u ≠ t.root then x.answers u else []
  let pre : List (Process.Act Note) :=
    .note (.enter 0) :: (own ++ (l₁.flatMap x.deals ++ (x.emits r ++ [.get (.tcp r u) (nack t x.P r).encode])))
  let post : List (Process.Act Note) := l₂.flatMap x.deals ++ [.note (.leave 0 0 (x.mem u))]
  have hs : round t.n 0 x.outcome u = pre ++ .put [(c, parcel)] :: post := by
    rw [round, if_pos hu, proj_outcome, script, hb]
    simp only [List.flatMap_append, List.flatMap_cons, deals_lost ha hl]
    simp [pre, post, own, outcome, c, u, parcel]
  -- Nothing that the rank above does before it reads the request is the answer to it.
  have hpre : pre.flatMap (Act.puts c) = [] := by
    have hown : own.flatMap (Act.puts c) = [] := by
      simp only [own]
      split
      case isFalse   => rfl
      case isTrue hu => exact puts_answers (Cascade.acyclic hlt hne hu.left hu.right rfl)
    simp only [pre, List.flatMap_cons, List.flatMap_append, hown, puts_deals hr₁, puts_emits, c]
    rfl
  have hlen : (pre.flatMap (Act.puts c)).length < ((a.done u).flatMap (Act.puts c)).length := by
    have hc : (a.done u).flatMap (Act.puts c) = (a.done r).flatMap (Act.gets c) ++ a.queue c :=
      State.Conserves.start.reaches round_owned hr c
    have hg : parcel ∈ (a.done r).flatMap (Act.gets c) := by
      rw [hd, round_flatMap (fun _ => rfl) 0 hlt, proj_outcome, script,
        if_pos ⟨hlt, hne⟩, answers, takes, if_pos hl, ha.given, ha.content]
      simp [Act.gets, c, parcel, u]
    rw [hpre, hc, List.length_append, List.length_nil]
    have := List.length_pos_of_mem hg
    omega
  have hin := (done_prefix_of_puts _ (hs ▸ hr.done_prefix u) hlen).subset
  exact ⟨hin (by simp [pre, u]), hin (by simp [c, parcel, u])⟩

end Runs

theorem restored_read_char (count : Nat) (m b : Mem) :
    (restored 1 count .char (payload 1 count m) b).read 0 count = m.read 0 count := by
  have h : (restored 1 count .char (payload 1 count m) b).read 0 (1 * count) = converted 1 count m :=
    restored_read (by simp [ElementSize])
  rw [converted_eq (by simp [ElementSize]) (by decide)] at h
  simpa only [Nat.one_mul] using h

-- All ranks have the data of the root, by whichever way.
theorem mem_read (ha : x.Answered) (hz : x.b t.root (x.count - 1) = 0) :
    ∀ r < t.n, (x.mem r).read 0 x.count = (x.b t.root).read 0 x.count := by
  refine t.induct (by rw [x.mem_root]) fun r hr hne hup => ?_
  rw [x.mem_above r hr hne, ha.content]
  split
  · exact (restored_read_char _ _ _).trans hup
  · exact stored_read_char x.single.left hup (read_drop_last x.single.left hz)

-- The call is the only one of a program that the ranks of a network run.
structure Describes (x : Relay t) (garbage : Nat → Mem) (bufs : Nat → Nat → Mem) (call : Call) : Prop where
  ranks    : x.P = Plan.ranks t.n garbage
  bufs     : x.b = fun r => bufs r 0
  performs : ∀ f : Forwarder, ∀ r < t.n, Performs (medium t.n f x.lost) r (call.perform (x.P r) (x.b r)) (x.script r)
    (.ret (0, x.mem r, ends t x.P r))

namespace Describes

variable {garbage : Nat → Mem} {bufs : Nat → Nat → Mem} {call : Call} {s : Net Note} (h : x.Describes garbage bufs call)
  (ha : x.Answered) (f : Forwarder)
include h

theorem sim : Sim (medium t.n f x.lost) (fun _ => .ret ()) (network t.n garbage bufs [call])
    (.start (round t.n 0 x.outcome)) := by
  apply Sim.start
  intro r
  by_cases hr : r < t.n
  case pos =>
    have hb : x.b r = bufs r 0 := by rw [h.bufs]
    have hp := h.performs f r hr
    rw [← proj_outcome, hb] at hp
    have hp := Mpi.round_performs bufs [] (P := x.P) (o := x.outcome) (i := 0) hr hp .refl
    rw [List.append_nil, h.ranks] at hp
    rw [if_pos hr]
    exact hp
  case neg =>
    rw [if_neg hr, round, if_neg hr]
    exact .refl

include ha

theorem reaches (hr : Net.Reaches (medium t.n f x.lost) (network t.n garbage bufs [call]) s) :
    ∃ a, (State.start (round t.n 0 x.outcome)).Reaches a ∧ Sim (medium t.n f x.lost) (fun _ => .ret ()) s a :=
  (h.sim f).reaches (fun _ => trivial) round_owned .start ((completes ha).agrees round_owned .start)
    (fun _ => orderly ha f) rfl hr

omit h ha in
theorem done_of_left (ra : (State.start (round t.n 0 x.outcome)).Reaches a)
    (hsim : Sim (medium t.n f x.lost) (fun _ => .ret ()) s a) (hlt : r < t.n) (hl : Left 0 (s.events r)) :
    a.done r = round t.n 0 x.outcome r := by
  obtain ⟨_, _, hl⟩ := hl
  exact eq_round_of_leave (fun _ => outcome_quiet) hlt (ra.done_prefix r) ((note_mem_iff (hsim.events r)).mp hl)

theorem repaired (hz : x.b t.root (x.count - 1) = 0)
    (hr : Net.Reaches (medium t.n f x.lost) (network t.n garbage bufs [call]) s) (hlt : r < t.n) (hne : r ≠ t.root)
    (hl : x.lost r) (hleft : Left 0 (s.events r)) :
    Repaired r (t.above r) ((bufs t.root 0).read 0 x.count) s := by
  obtain ⟨a, ra, hsim⟩ := h.reaches ha f hr
  have hd := done_of_left f ra hsim hlt hleft
  obtain ⟨hget, hput⟩ := mended ha ra hlt hne hl hd
  have hmem {m} (hm : m ∈ x.answers r) : m ∈ a.done r := by
    rw [hd, round, if_pos hlt, proj_outcome, script, if_pos ⟨hlt, hne⟩]
    simp [hm]
  have hdata : payload 1 x.count (x.mem (t.above r)) = (bufs t.root 0).read 0 x.count := by
    have hb : x.b t.root = bufs t.root 0 := by rw [h.bufs]
    rw [payload, Nat.one_mul, genericHton_one (by simp), mem_read ha hz _ (t.above_lt r hlt hne), hb]
  rw [hdata] at hput
  constructor
  case asked =>
    refine ⟨(nack t x.P r).encode, isNack_nack, (send_mem_iff (hsim.events r)).mpr ?_,
      (recv_mem_iff (hsim.events _)).mpr hget⟩
    exact hmem (by simp [answers, takes, hl])
  case answered =>
    refine ⟨again t x.P r, (send_mem_iff (hsim.events _)).mpr hput, (recv_mem_iff (hsim.events r)).mpr ?_⟩
    exact hmem (by simp [answers, takes, hl, ha.given, ha.content, hdata])

theorem recovers (hz : x.b t.root (x.count - 1) = 0)
    (hr : Net.Reaches (medium t.n f x.lost) (network t.n garbage bufs [call]) s) :
    Recovers t.n t.root x.lost (medium t.n f x.lost) ((bufs t.root 0).read 0 x.count) s := by
  obtain ⟨a, ra, hsim⟩ := h.reaches ha f hr
  constructor
  case free => exact hsim.not_stuck (fun _ => trivial) ((completes ha).reaches round_owned ra) t.n
  case same =>
    intro r hlt buf hm
    have hm := (ra.done_prefix r).subset <| (note_mem_iff (hsim.events r)).mp hm
    obtain ⟨_, _, rfl⟩ := round_leave (fun _ => outcome_quiet) hm
    have hb : x.b t.root = bufs t.root 0 := by rw [h.bufs]
    rw [Mem.read_length, ← hb]
    exact mem_read ha hz r hlt
  case asks =>
    intro r hlt hne hl hleft
    obtain ⟨m, hm, hsend, _⟩ := (h.repaired ha f hz hr hlt hne hl hleft).asked
    exact ⟨t.above r, m, hsend, hm⟩
  case answered =>
    intro r hlt hleft q m hm hn
    have hd := done_of_left f ra hsim hlt hleft
    -- The request is the one that has been heard.
    obtain ⟨hne, hl, rfl, rfl⟩ := isNack_put hlt (hd ▸ (send_mem_iff (hsim.events r)).mp hm) hn
    have hheard := (mended ha ra hlt hne hl hd).left
    obtain ⟨g, hsend, hrecv⟩ := (h.repaired ha f hz hr hlt hne hl hleft).answered
    exact ⟨(recv_mem_iff (hsim.events _)).mpr hheard, _, hsend, hrecv⟩

-- What is left when all ranks have left the call.
theorem leaves (hr : Net.Reaches (medium t.n f x.lost) (network t.n garbage bufs [call]) s)
    (hl : ∀ r < t.n, Left 0 (s.events r)) :
    (∀ q, s.udp q = []) ∧ ∀ p q, s.tcp p q = (x.leftover (.tcp p q)).flatten := by
  obtain ⟨a, ra, hsim⟩ := h.reaches ha f hr
  have hdone r : a.done r = round t.n 0 x.outcome r := by
    by_cases hlt : r < t.n
    case pos => exact done_of_left f ra hsim hlt (hl r hlt)
    case neg =>
      have hp := ra.done_prefix r
      rw [round, if_neg hlt] at hp ⊢
      exact List.prefix_nil.mp hp
  have hqueue c : a.queue c = x.leftover c := by
    have hc := State.Conserves.start.reaches round_owned ra c
    rw [hdone, hdone, balance ha c] at hc
    exact (List.append_cancel_left hc).symm
  exact ⟨fun q => by rw [hsim.udp, hqueue]; rfl, fun p q => by rw [hsim.tcp, hqueue]⟩

-- A run in which all ranks leave the call.
theorem leaves_all : ∃ s, Net.Reaches (medium t.n f x.lost) (network t.n garbage bufs [call]) s ∧
    ∀ r < t.n, Left 0 (s.events r) := by
  obtain ⟨a, ra, hend⟩ := completes ha
  obtain ⟨s, rs, hsim⟩ := (h.sim f).lift_reaches ra
  refine ⟨s, rs, fun r hlt => ⟨0, x.mem r, (note_mem_iff (hsim.events r)).mpr ?_⟩⟩
  have hs : a.script r = round t.n 0 x.outcome r := congrFun ra.script_eq r
  rw [State.script, hend r, List.append_nil] at hs
  rw [hs, round, if_pos hlt]
  simp [outcome]

end Describes

-- Every rank gets the data by the datagram, or once more from the rank above it.
section Lossy

variable (t) (count : Nat) (lost : Nat → Bool) (P : Nat → ProcessInfo) (b : Nat → Mem)

def lossyMem : Nat → Mem :=
  t.spread (fun r m =>
    if lost r then restored 1 count .char (payload 1 count m) (b r) else stored 1 count .char (payload 1 count m) (b r))
    (b t.root)

variable {t P lost} in
theorem lossy_heard (int : t.n < 2 ^ 31) (ranked : Ranked t.n P) (hq : q < t.n)
    (h : (if lost q then nack t P q else ack t P q).datatype.toNat = MPIDatatype.nack.code) :
    (if lost q then nack t P q else ack t P q).root.toInt = q := by
  split
  case isTrue     => exact nack_root int ranked hq
  case isFalse hl =>
    rw [if_neg hl] at h
    exact absurd h (ack_code _ _ _)

def lossy (int : t.n < 2 ^ 31) (ranked : Ranked t.n P) (single : Single 1 count) : Relay t where
  count
  lost
  P
  b
  int
  ranked
  single
  mem        := lossyMem t count lost b
  heard q    := if lost q then nack t P q else ack t P q
  given      := again t P
  content q  := payload 1 count (lossyMem t count lost b (t.above q))
  mem_root   := Cascade.spread_root
  mem_above  := fun _ hr hne => Cascade.spread_eq hr hne
  length     := fun _ => payload_len _ _
  heard_root := fun _ => lossy_heard int ranked

end Lossy

end Relay

variable {n root count : Nat} {b : Bcast}

end Mpi
