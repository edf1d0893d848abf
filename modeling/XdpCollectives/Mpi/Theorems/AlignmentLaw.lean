import XdpCollectives.Mpi.Theorems.Alignment
import Mathlib.Data.List.TakeWhile

-- Which broadcasts leave the connections aligned.
namespace Mpi

open Memory Wire Process Script

variable {n root : Nat} {f : Forwarder} {garbage : Nat → Mem} {bufs : Nat → Nat → Mem} {source : Nat → Nat}
  {cs rest : List Call} {os : List Outcome} {P' : Nat → ProcessInfo} {c : Call}

section Prefix

variable (h : Plan (lossless n f) n source bufs 0 cs (Plan.ranks n garbage) os P')
include h

theorem script_opening {r : Nat} (hr : r < n) {a : Process.Act Note} (ha : a ∈ Plan.script n os r)
    (ho : opening a = some j) : j < cs.length := by
  have := (h.sections hr).opens_lt ha ho
  rwa [List.length_map, rounds_length, h.length_eq] at this

theorem script_closing {r : Nat} (hr : r < n) {a : Process.Act Note} (ha : a ∈ Plan.script n os r)
    (ho : closing a = some j) : j < cs.length := by
  have := (h.sections hr).closes_lt ha ho
  rwa [List.length_map, rounds_length, h.length_eq] at this

-- What is left over is there when the root begins the barrier.
theorem misaligned_of_doubles (hroot : root < n) {g : List (Nat × Process.Act Note)} {q : Queues Chan Bytes}
    (hd : Doubles n root f c P' (fun r => bufs r cs.length) g q) :
    ∃ s, Net.Reaches (lossless n f) (network n garbage bufs (cs ++ c :: .barrier :: rest)) s ∧ ¬Aligned n s := by
  obtain ⟨v, hv⟩ := hd.sender
  let i := cs.length
  let after (r : Nat) : List (Process.Act Note) :=
    if r = root then [.note (.leave i v.1 v.2.1), .note (.enter (i + 1))] else []
  let t (r : Nat) : List (Process.Act Note) := if r < n then .note (.enter i) :: (proj r g ++ after r) else []
  have hy r : ∃ y, r < n → Performs (lossless n f) r (performCalls (bufs r) i (c :: .barrier :: rest) (P' r))
    (t r) y := by
    by_cases hr : r < n
    case neg => exact ⟨.ret (), fun h => absurd h hr⟩
    case pos =>
      by_cases he : r = root
      case pos =>
        subst he
        simp only [t, after, if_pos hr, if_true]
        exact ⟨_, fun _ => .note <| hv.seq <| .note <| .note .refl⟩
      case neg =>
        obtain ⟨y, hy⟩ := hd.others r hr he
        simp only [t, after, if_pos hr, if_neg he]
        exact ⟨_, fun _ => .note <| hy.bind .refl⟩
  choose y hy using hy
  let all := (List.range n).flatMap (fun r => tag r [(.note (.enter i) : Process.Act Note)]) ++
    (g ++ tag root [.note (.leave i v.1 v.2.1), .note (.enter (i + 1))])
  have hproj r : proj r all = t r := by
    simp only [all, t, after, proj_append, proj_each List.nodup_range, proj_tag, List.mem_range]
    by_cases hr : r < n
    case pos =>
      by_cases he : r = root
      case pos => simp [he, hroot]
      case neg => simp [hr, he, Ne.symm he]
    case neg => simp [hr, hd.idle r (by omega), show ¬root = r by omega]
  have hflow : Flow (fun _ => []) all q :=
    (notes_flow _ (fun _ => .enter i) _).append (hd.flow.append ⟨trivial, trivial, rfl⟩)
  obtain ⟨s, rs, _, htcp, hev⟩ := h.extend hy (fun r hr => if_neg (by omega)) hproj hflow
  refine ⟨s, rs, fun ha => ?_⟩
  obtain ⟨r, hr, hne, hleft⟩ := hd.left
  have hlast : (s.events root).getLast? = some (.note (.enter (i + 1))) := by
    have ht : Plan.script n os root ++ t root =
        (Plan.script n os root ++ .note (.enter i) :: (proj root g ++ [.note (.leave i v.1 v.2.1)])) ++
          [.note (.enter (i + 1))] := by
      simp [t, after, hroot]
    rw [getLast?_matches (hev root), ht]
    exact List.getLast?_concat
  have hfresh := ha.fresh r hr root hroot (i + 1) hlast
  have hsince : since opening (i + 1) (Plan.script n os r ++ t r) = [] := by
    rw [since, List.dropWhile_eq_nil_iff]
    intro a ha
    simp only [decide_eq_true_eq]
    intro ho
    rcases List.mem_append.mp ha with ha | ha
    · have := script_opening h hr ha ho
      omega
    · simp only [t, after, if_pos hr, if_neg hne, List.append_nil, List.mem_cons] at ha
      rcases ha with rfl | ha
      · simp [opening] at ho
      · cases a with
        | note e =>
          obtain ⟨buf, he⟩ := hd.quiet r e ha
          simp [he, opening] at ho
        | _ => simp [opening] at ho
  rw [sentTo_eq (since_matches (hev r) (i + 1)), hsince, htcp] at hfresh
  exact hleft hfresh

-- The root waits for a rank that has left the call and has sent nothing.
theorem misaligned_of_abandons (hroot : root < n) {r : Nat}
    (ha : Abandons n root f c P' (fun r => bufs r cs.length) r) :
    ∃ s, Net.Reaches (lossless n f) (network n garbage bufs (cs ++ c :: .barrier :: rest)) s ∧ ¬Aligned n s := by
  obtain ⟨t₀, len, k, hroot', hputs⟩ := ha.sender
  have hr := ha.lt
  have hne := ha.ne
  let i := cs.length
  let calls := c :: .barrier :: rest
  obtain ⟨y₀, hy₀, k₀, hk₀⟩ : ∃ y, Performs (lossless n f) root (performCalls (bufs root) i calls (P' root))
      (.note (.enter i) :: t₀) y ∧ ∃ k, y = .recv r len k :=
    ⟨_, .note (List.append_nil t₀ ▸ hroot'.bind .refl), _, rfl⟩
  let t (p : Nat) : List (Process.Act Note) :=
    if p = root then .note (.enter i) :: t₀
    else if p = r then [.note (.enter i), .note (.leave i (-1) (bufs r i))] else []
  let y (p : Nat) : Program Unit :=
    if p = root then y₀
    else if p = r then performCalls (bufs r) (i + 1) (.barrier :: rest) (P' r)
    else performCalls (bufs p) i calls (P' p)
  have hy p (hp : p < n) : Performs (lossless n f) p (performCalls (bufs p) i calls (P' p)) (t p) (y p) := by
    by_cases h₁ : p = root
    case pos =>
      subst h₁
      simp only [t, y, if_true]
      exact hy₀
    case neg =>
      by_cases h₂ : p = r
      case pos =>
        subst h₂
        simp only [t, y, if_neg h₁, if_true]
        refine .note ?_
        rw [ha.other]
        exact .note .refl
      case neg =>
        simp only [t, y, if_neg h₁, if_neg h₂]
        exact .refl
  obtain ⟨q, hflow, hq⟩ := Flow.of_puts (t := t₀) (fun a ha => (hputs a ha).imp fun _ h => h.left) (fun _ => []) root
  have hproj p : proj p (tag root (.note (.enter i) :: t₀) ++
      tag r [.note (.enter i), .note (.leave i (-1) (bufs r i))]) = t p := by
    rw [proj_append, proj_tag, proj_tag]
    by_cases h₁ : p = root
    case pos => simp [t, h₁, hne]
    case neg =>
      by_cases h₂ : p = r
      case pos => simp [t, h₂, hne, Ne.symm hne]
      case neg => simp [t, h₁, h₂, Ne.symm h₁, Ne.symm h₂]
  have hend : Flow (fun _ => []) (tag root (.note (.enter i) :: t₀) ++
      tag r [.note (.enter i), .note (.leave i (-1) (bufs r i))]) q :=
    Flow.append ⟨trivial, hflow⟩ ⟨trivial, trivial, rfl⟩
  obtain ⟨s, rs, hprog, htcp, hev⟩ :=
    h.extend hy (fun p hp => by simp [t, show p ≠ root by omega, show p ≠ r by omega]) hproj hend
  refine ⟨s, rs, fun hal => hal.served r hr root hroot i len k₀ ?_ ?_ ?_ ?_⟩
  · exact ⟨-1, bufs r i, (note_mem_iff (hev r)).mpr (by simp [t, hne])⟩
  · rintro ⟨ret, buf, hm⟩
    rw [note_mem_iff (hev root), List.mem_append] at hm
    rcases hm with hm | hm
    · have := script_closing h hroot hm rfl
      omega
    · simp only [t, if_true, List.mem_cons, Act.note.injEq, reduceCtorEq, false_or] at hm
      obtain ⟨_, he, _⟩ := hputs _ hm
      contradiction
  · rw [hprog root hroot]
    simp only [y, if_true, hk₀]
  · rw [htcp, hq, List.nil_append, List.flatten_eq_nil_iff]
    intro l hl
    obtain ⟨a, ha, hl⟩ := List.mem_flatMap.mp hl
    obtain ⟨outs, he, ho⟩ := hputs a ha
    rw [he, Act.puts, outsOn_eq_nil (fun o hm hc => by
      obtain ⟨q, hq⟩ := ho o hm
      rw [hq] at hc
      contradiction)] at hl
    contradiction

end Prefix

section Broadcasts

variable {b : Bcast} {counts : List Nat}

theorem plan_of_single (hn : 2 ≤ n) (hroot : root < n) (hb : b ≠ .ringXdpEager) (f : Forwarder) (garbage : Nat → Mem)
    (bufs : Nat → Nat → Mem) (hc : ∀ count ∈ counts, 0 < count ∧ mpiHeader + count ≤ maxPayload) :
    ∃ os P', Plan (lossless n f) n (b.source n root) bufs 0 (broadcasts b root counts)
      (Plan.ranks n garbage) os P' := by
  have ⟨os, P', h, _⟩ := broadcasts_plan f hn hroot (Plan.ranks_ranked n garbage) hb (broadcasts b root counts)
    (fun c hm => (mem_broadcasts hm).imp_right fun ⟨count, hm, he⟩ =>
      ⟨count, ⟨(hc count hm).left, by have := (hc count hm).right; omega⟩, he⟩) bufs 0
  exact ⟨os, P', h⟩

-- The first message that takes several datagrams.
theorem misaligned_of_large (hn : 2 ≤ n) (hint : n < 2 ^ 31) (hroot : root < n) (hb : b ≠ .ringXdpEager) (f : Forwarder)
    (garbage : Nat → Mem) (bufs : Nat → Nat → Mem) (hc : ∀ count ∈ counts, 0 < count ∧ count < 2 ^ 31)
    (hl : ¬∀ count ∈ counts, mpiHeader + count ≤ maxPayload) :
    ∃ s, Net.Reaches (lossless n f) (network n garbage bufs (broadcasts b root counts)) s ∧ ¬Aligned n s := by
  have ⟨good, count, rest, he, hgood, hlarge⟩ := exists_first hl
  have hcs : broadcasts b root counts =
      broadcasts b root good ++ .bcast b count .char root :: .barrier :: broadcasts b root rest := by
    rw [he, broadcasts, List.flatMap_append, List.flatMap_cons]
    rfl
  have hcount := hc count (he ▸ by simp)
  have ⟨os, P', h⟩ := plan_of_single hn hroot hb f garbage bufs fun c hm =>
    ⟨(hc c (he ▸ by simp [hm])).left, hgood c hm⟩
  have hP := h.ranked (Plan.ranks_ranked n garbage)
  rw [hcs]
  by_cases ho : mpiHeader + count < 2 ^ 31
  case pos =>
    have ⟨g, q, hd⟩ := bcast_doubles (f := f) (P := P') (m := fun r => bufs r (broadcasts b root good).length)
      hb hn hint hroot hP (by omega) ho
    exact misaligned_of_doubles h hroot hd
  case neg =>
    have ⟨r, ha⟩ := bcast_abandons (f := f) (P := P') (m := fun r => bufs r (broadcasts b root good).length)
      b hb hn hroot hP (by omega) hcount.right
    exact misaligned_of_abandons h hroot ha

-- The acknowledgements of acknowledged broadcasts add up if and only if no message takes several
-- datagrams.
theorem broadcasts_aligned_iff (hn : 2 ≤ n) (hint : n < 2 ^ 31) (hroot : root < n) (hb : b ≠ .ringXdpEager)
    (f : Forwarder) (garbage : Nat → Mem) (bufs : Nat → Nat → Mem)
    (hc : ∀ count ∈ counts, 0 < count ∧ count < 2 ^ 31) :
    (∀ s, Net.Reaches (lossless n f) (network n garbage bufs (broadcasts b root counts)) s → Aligned n s) ↔
      ∀ count ∈ counts, mpiHeader + count ≤ maxPayload := by
  constructor
  · intro h
    by_contra hl
    have ⟨s, rs, hs⟩ := misaligned_of_large hn hint hroot hb f garbage bufs hc hl
    exact hs (h s rs)
  · intro h s rs
    have ⟨_, _, hp⟩ := plan_of_single hn hroot hb f garbage bufs fun count hm => ⟨(hc count hm).left, h count hm⟩
    exact hp.aligned rs

theorem broadcasts_aligned_two :
    (∀ s, Net.Reaches (lossless 2 .id)
        (network 2 (fun _ _ => 0) (fun _ _ _ => 0) (broadcasts .ringXdp 0 [3, 1424, 5])) s → Aligned 2 s) ↔
      ∀ count ∈ [3, 1424, 5], mpiHeader + count ≤ maxPayload :=
  broadcasts_aligned_iff (by decide) (by decide) (by decide) (by decide) .id (fun _ _ => 0) (fun _ _ _ => 0) (by decide)

theorem broadcasts_misaligned_two :
    ∃ s, Net.Reaches (lossless 2 .id)
        (network 2 (fun _ _ => 0) (fun _ _ _ => 0) (broadcasts .ringXdp 0 [1425])) s ∧ ¬Aligned 2 s :=
  misaligned_of_large (by decide) (by decide) (by decide) (by decide) .id (fun _ _ => 0) (fun _ _ _ => 0) (by decide)
    (by decide)

end Broadcasts

end Mpi
