import XdpCollectives.Mpi.Theorems.Agreement
import XdpCollectives.Process.Traces

-- What the barriers of a program keep apart.
namespace Mpi

open Memory Wire Process Script

-- A rank in a barrier, up to where it has passed the token on.
def handing (n i : Nat) (P : Nat → ProcessInfo) (r : Nat) : List (Process.Act Note) :=
  .note (.enter i) :: if r = 0 then [.put [(.tcp 0 1, token (P 0))]]
    else [.get (.tcp (r - 1) r) (token (P (r - 1))), .put [(.tcp r ((r + 1) % n), token (P r))]]

variable {n i j r p : Nat} {P P' : Nat → ProcessInfo} {source : Nat → Nat} {os : List Outcome} {o o' : Outcome}
  {a : Process.Plan Note}

theorem handing_prefix (hr : r < n) (ho : o.flow = barrierFlow n P) : handing n i P r <+: round n i o r := by
  rw [handing, round, if_pos hr, ho, proj_barrierFlow]
  by_cases h0 : r = 0
  case pos => simp [h0]
  case neg => simp [h0, hr]

theorem handing_succ (hr : r + 1 < n) : ∃ pre, handing n i P r = pre ++ [.put [(.tcp r (r + 1), token (P r))]] ∧
    pre.flatMap (Act.puts (.tcp r (r + 1))) = [] := by
  rw [handing]
  by_cases h0 : r = 0
  case pos =>
    subst h0
    exact ⟨[.note (.enter i)], rfl, rfl⟩
  case neg =>
    rw [if_neg h0, Nat.mod_eq_of_lt hr]
    exact ⟨[.note (.enter i), .get (.tcp (r - 1) r) (token (P (r - 1)))], rfl, rfl⟩

-- In barrier `i`, the rank has passed the token on.
def Handed (n : Nat) (os : List Outcome) (a : Process.Plan Note) (i : Nat) (P : Nat → ProcessInfo) (r : Nat) : Prop :=
  upto (rounds n 0 os) i r ++ handing n i P r <+: a.done r

theorem round_split (ho : os[i]? = some o) (r : Nat) :
    ∃ post, Plan.script n os r = upto (rounds n 0 os) i r ++ (round n i o r ++ post) := by
  have ⟨post, hp⟩ := upto_isPrefix (rounds n 0 os) (i + 1) r
  refine ⟨post, hp.symm.trans ?_⟩
  rw [upto, List.take_add_one, rounds_getElem?, ho, List.map_append, List.flatten_append, List.append_assoc, ← upto]
  simp

theorem upto_succ (ho : os[i]? = some o) (r : Nat) :
    upto (rounds n 0 os) (i + 1) r = upto (rounds n 0 os) i r ++ round n i o r := by
  rw [upto, List.take_add_one, rounds_getElem?, ho, List.map_append, List.flatten_append, ← upto]
  simp

theorem upto_mono (hij : i ≤ j) (r : Nat) : upto (rounds n 0 os) i r <+: upto (rounds n 0 os) j r := by
  have h := upto_isPrefix ((rounds n 0 os).take j) i r
  rwa [upto, List.take_take, Nat.min_eq_left hij] at h

section

variable (hc : ∀ o ∈ os, o.Conducted n source) (ra : (State.start (Plan.script n os)).Reaches a)
include hc ra

-- Who has got a message of a round that another rank puts there last has it from that round.
theorem handed_of_get (ho : os[i]? = some o) (hf : o.flow = barrierFlow n P) (hr : r < n) {q : Nat}
    (hq : upto (rounds n 0 os) i q ++ pre ++ [.get (.tcp r q) m] <+: a.done q)
    (hs : ∃ pre', handing n i P r = pre' ++ [.put [(.tcp r q, token (P r))]] ∧
      pre'.flatMap (Act.puts (.tcp r q)) = []) : Handed n os a i P r := by
  obtain ⟨pre', he, hn⟩ := hs
  obtain ⟨post, hpost⟩ := round_split (n := n) ho r
  obtain ⟨rest, hrest⟩ := handing_prefix (i := i) hr hf
  obtain ⟨v, hv⟩ := hq
  have hputs : (upto (rounds n 0 os) i r).flatMap (Act.puts (.tcp r q)) =
      (upto (rounds n 0 os) i q).flatMap (Act.gets (.tcp r q)) :=
    upto_puts_eq_gets (w := wiring source) (Plan.rounds_drains hc) (Plan.rounds_owned hc) i (.tcp r q)
  have hcon : (a.done r).flatMap (Act.puts (.tcp r q)) =
      (a.done q).flatMap (Act.gets (.tcp r q)) ++ a.queue (.tcp r q) :=
    State.Conserves.start.reaches (Plan.script_owned hc) ra (.tcp r q)
  have hlt : ((upto (rounds n 0 os) i r ++ pre').flatMap (Act.puts (.tcp r q))).length <
      ((a.done r).flatMap (Act.puts (.tcp r q))).length := by
    rw [hcon, ← hv]
    simp only [List.flatMap_append, List.length_append, hn, hputs, List.flatMap_singleton, Act.gets, if_true,
      List.length_cons, List.length_nil]
    omega
  rw [Handed, he, ← List.append_assoc]
  refine done_prefix_of_puts (rest ++ post) ?_ hlt
  have hd := ra.done_prefix r
  rwa [hpost, ← hrest, he, List.append_assoc, List.append_assoc, ← List.append_assoc] at hd

variable (ho : os[i]? = some o) (hf : o.flow = barrierFlow n P)
include ho hf

-- The token comes from the rank before.
theorem Handed.prev (hr : r + 1 < n) (h : Handed n os a i P (r + 1)) : Handed n os a i P r := by
  have hq : upto (rounds n 0 os) i (r + 1) ++ [.note (.enter i)] ++ [.get (.tcp r (r + 1)) (token (P r))] <+:
      a.done (r + 1) := by
    refine List.IsPrefix.trans ?_ h
    rw [handing, if_neg (Nat.succ_ne_zero r)]
    simp
  exact handed_of_get hc ra ho hf (by omega) hq (handing_succ hr)

theorem Handed.le (h : Handed n os a i P r) (hr : r < n) (hp : p ≤ r) : Handed n os a i P p := by
  induction r with
  | zero => exact Nat.le_zero.mp hp ▸ h
  | succ r hi =>
    rcases Nat.lt_or_eq_of_le hp with hp | rfl
    · exact hi (h.prev hc ra ho hf hr) (by omega) (by omega)
    · exact h

-- Rank 0 has to wait for the token to come back.
theorem handed_last (hn : 2 ≤ n) (h : upto (rounds n 0 os) (i + 1) 0 <+: a.done 0) : Handed n os a i P (n - 1) := by
  have hq : upto (rounds n 0 os) i 0 ++ [.note (.enter i), .put [(.tcp 0 1, token (P 0))]] ++
      [.get (.tcp (n - 1) 0) (token (P (n - 1)))] <+: a.done 0 := by
    refine List.IsPrefix.trans ?_ h
    rw [upto_succ ho, round, if_pos (by omega), hf, proj_barrierFlow]
    simp
  refine handed_of_get hc ra ho hf (by omega) hq
    ⟨[.note (.enter i), .get (.tcp (n - 1 - 1) (n - 1)) (token (P (n - 1 - 1)))], ?_, rfl⟩
  rw [handing, if_neg (by omega), Nat.sub_add_cancel (by omega), Nat.mod_self]
  rfl

omit hc ra in
theorem handed_of_upto (hr : r < n) (h : upto (rounds n 0 os) (i + 1) r <+: a.done r) : Handed n os a i P r := by
  refine List.IsPrefix.trans ?_ h
  rw [upto_succ ho, List.prefix_append_right_inj]
  exact handing_prefix hr hf

end

theorem Handed.entered (h : Handed n os a i P r) : .note (.enter i) ∈ a.done r :=
  h.subset (List.mem_append_right _ List.mem_cons_self)

section Calls

variable (hc : ∀ o ∈ os, o.Conducted n source) (ra : (State.start (Plan.script n os)).Reaches a) (hr : r < n)
include hc ra hr

-- Who has entered a call has ended those before it, and who has left it has ended it, too.
theorem upto_of_enter (h : .note (.enter i) ∈ a.done r) : upto (rounds n 0 os) i r <+: a.done r := by
  obtain ⟨u, v, he⟩ := List.append_of_mem h
  have hu : u ++ [.note (.enter i)] <+: a.done r := ⟨v, by rw [he, List.append_assoc, List.singleton_append]⟩
  have ho := (Plan.rounds_sections hc hr).opened (hu.trans (ra.done_prefix r)) rfl
  rw [upto, List.map_take, ← ho]
  exact (List.prefix_append _ _).trans hu

theorem upto_of_leave {ret : Int} {buf : Mem} (h : .note (.leave i ret buf) ∈ a.done r) :
    upto (rounds n 0 os) (i + 1) r <+: a.done r := by
  have hu := ((Plan.rounds_sections hc hr).closed (ra.done_prefix r) h rfl).right
  rwa [← List.map_take] at hu

omit hc ra in
theorem leave_of_upto (ho : os[i]? = some o) (h : upto (rounds n 0 os) (i + 1) r <+: a.done r) :
    .note (.leave i 0 (o.buf r)) ∈ a.done r := by
  refine h.subset ?_
  rw [upto_succ ho, round, if_pos hr]
  simp

omit hr in
-- Where a rank has left a barrier, so many ranks have entered it.
theorem handed_of_leave (hn : 2 ≤ n) (ho : os[i]? = some o) (hf : o.flow = barrierFlow n P)
    (h : upto (rounds n 0 os) (i + 1) r <+: a.done r) (hr : r < n) (hp : p < n) (hpr : p ≤ r ∨ r = 0) :
    Handed n os a i P p := by
  rcases hpr with hpr | rfl
  · exact (handed_of_upto ho hf hr h).le hc ra ho hf hr hpr
  · exact (handed_last hc ra ho hf hn h).le hc ra ho hf (by omega) (by omega)

end Calls

-- What a rank knows of the others when it has left a barrier: rank 0 that they have entered it, any other rank that
-- those before it have, and all ranks that everybody has entered the barriers before it.
structure Separated (n : Nat) (calls : List Call) (s : Net Note) : Prop where
  same   : ∀ (i : Nat) r p, calls[i]? = some .barrier → r < n → p < n → p ≤ r ∨ r = 0 → Left i (s.events r) →
    Entered i (s.events p)
  before : ∀ (i j : Nat) r p, calls[i]? = some .barrier → calls[j]? = some .barrier → j < i → r < n → p < n →
    Left i (s.events r) → Entered j (s.events p)

theorem broadcasts_separate {b : Bcast} {root : Nat} {f : Forwarder} {garbage : Nat → Mem} {bufs : Nat → Nat → Mem}
    {calls : List Call} (hn : 2 ≤ n) (hroot : root < n) (hb : b ≠ .ringXdpEager)
    (hcs : ∀ c ∈ calls, c = .barrier ∨ ∃ count : Nat, Single 1 count ∧ c = .bcast b count .char root) :
    ∀ s, Net.Reaches (lossless n f) (network n garbage bufs calls) s → Separated n calls s := by
  intro s h
  obtain ⟨os, P', hp, hq⟩ := Plan.build (b.source n root) bufs calls (μ := lossless n f) (i := 0)
    (Q := fun _ c o => c = .barrier → ∃ P, o.flow = barrierFlow n P) (Plan.ranks_ranked n garbage) fun j c hj P hP => by
      rcases hcs c (List.mem_of_getElem? hj) with rfl | ⟨count, hc, rfl⟩
      · exact ⟨_, barrier_plays _ _ hn hP _, fun _ => ⟨P, rfl⟩⟩
      · obtain ⟨o, ho, _⟩ := bcast_hands f hn hroot hP hc hb
        exact ⟨o, ho, by simp⟩
  obtain ⟨a, ra, hs⟩ := hp.reaches h
  have hcon := hp.conducted
  have hbar {i : Nat} (hi : calls[i]? = some .barrier) : ∃ o P, os[i]? = some o ∧ o.flow = barrierFlow n P := by
    obtain ⟨o, ho, hf⟩ := hq i _ hi
    obtain ⟨P, hf⟩ := hf rfl
    exact ⟨o, P, ho, hf⟩
  have hleft {i r : Nat} (hr : r < n) (hl : Left i (s.events r)) : upto (rounds n 0 os) (i + 1) r <+: a.done r := by
    obtain ⟨ret, buf, hl⟩ := hl
    exact upto_of_leave hcon ra hr ((note_mem_iff (hs.events r)).mp hl)
  constructor
  case same =>
    intro i r p hi hr hp hpr hl
    obtain ⟨o, P, ho, hf⟩ := hbar hi
    have hh := handed_of_leave hcon ra hn ho hf (hleft hr hl) hr hp hpr
    exact (note_mem_iff (hs.events p)).mpr hh.entered
  case before =>
    intro i j r p hi hj hij hr hp hl
    obtain ⟨o, P, ho, hf⟩ := hbar hi
    obtain ⟨o', P', ho', hf'⟩ := hbar hj
    -- Rank 0 has entered the later barrier, so it has left the earlier one.
    have h0 := handed_of_leave hcon ra hn ho hf (hleft hr hl) hr (p := 0) (by omega) (.inl (Nat.zero_le r))
    have hle : upto (rounds n 0 os) (j + 1) 0 <+: a.done 0 :=
      (upto_mono hij 0).trans ((List.prefix_append _ _).trans h0)
    have hh := handed_of_leave hcon ra hn ho' hf' hle (by omega) hp (.inr rfl)
    exact (note_mem_iff (hs.events p)).mpr hh.entered

-- The run in which the token has got to the last of three ranks.
theorem broadcasts_separate_three : ∃ s, Left 0 (s.events 2) ∧
    Separated 3 [.barrier, .bcast .ringXdp 5 .char 1, .barrier] s := by
  have ⟨s, hs, ht⟩ : ∃ s, [Net.Label.run 2, .run 0, .run 0, .run 1, .run 1, .run 1, .run 2, .run 2, .run 2].foldlM
      (Net.step (lossless 3 .id)) (network 3 (fun _ _ => 0) (fun _ _ _ => 0)
        [.barrier, .bcast .ringXdp 5 .char 1, .barrier]) = some s ∧
      s.trace.getLast? = some (2, .note (.leave 0 0 fun _ => 0)) := ⟨_, rfl, rfl⟩
  refine ⟨s, ⟨0, fun _ => 0, ?_⟩, @broadcasts_separate _ .ringXdp 1 _ _ _ _ (by decide) (by decide) (by decide) ?_ s
    (Net.reaches_of_steps hs)⟩
  · exact List.mem_filterMap.mpr ⟨_, List.mem_of_getLast? ht, rfl⟩
  · intro c hc
    simp only [List.mem_cons, List.not_mem_nil, or_false] at hc
    rcases hc with rfl | rfl | rfl
    · exact .inl rfl
    · exact .inr ⟨5, ⟨by decide, by decide⟩, rfl⟩
    · exact .inl rfl

end Mpi
