import XdpCollectives.Process.Gathering

-- Networks that reorder the datagrams that a process waits for at one time.
namespace Process

variable {E : Type}

-- Messages that are received one after the other from a channel change places.
inductive Shuffles (c : Chan) : List (Act E) → List (Act E) → Prop
  | nil : Shuffles c [] []
  | cons (a : Act E) (h : Shuffles c t t') : Shuffles c (a :: t) (a :: t')
  | swap (d d' : Bytes) (t : List (Act E)) : Shuffles c (.get c d :: .get c d' :: t) (.get c d' :: .get c d :: t)
  | trans (h₁ : Shuffles c t₁ t₂) (h₂ : Shuffles c t₂ t₃) : Shuffles c t₁ t₃

variable {μ : Medium} {w : Script.Wiring Chan} {s s' : Net E} {a a' : Plan E} {p q : Nat} {c : Chan}
  {stop : Nat → Prog E Unit} {t t' t₁ t₂ u : List (Act E)} {act : Act E} {ds ds' U : List Bytes}

namespace Shuffles

theorem refl (t : List (Act E)) : Shuffles c t t := by
  induction t
  case nil          => exact .nil
  case cons a _ hi  => exact .cons a hi

theorem append_left (l : List (Act E)) (h : Shuffles c t t') : Shuffles c (l ++ t) (l ++ t') := by
  induction l
  case nil          => exact h
  case cons a _ hi  => exact .cons a hi

theorem of_perm (h : ds.Perm ds') (t : List (Act E)) : Shuffles c (ds.map (.get c) ++ t) (ds'.map (.get c) ++ t) := by
  induction h
  case nil               => exact .refl t
  case cons d _ _ _ hi   => exact .cons _ hi
  case swap d d' _       => exact .swap _ _ _
  case trans hi₁ hi₂     => exact hi₁.trans hi₂

theorem perm (h : Shuffles c t t') : t.Perm t' := by
  induction h
  case nil            => exact .refl _
  case cons hi        => exact hi.cons _
  case swap           => exact .swap ..
  case trans hi₁ hi₂  => exact hi₁.trans hi₂

-- An action of another kind keeps apart what is before it and what is behind it.
theorem split (ha : ∀ d, act ≠ .get c d) (h : Shuffles c (t₁ ++ act :: t₂) u) :
    ∃ u₁ u₂, u = u₁ ++ act :: u₂ ∧ Shuffles c t₁ u₁ ∧ Shuffles c t₂ u₂ := by
  generalize hx : t₁ ++ act :: t₂ = x at h
  induction h generalizing t₁ t₂
  case nil => simp at hx
  case cons b _ h hi =>
    cases t₁ with
    | nil       =>
      obtain ⟨rfl, rfl⟩ := List.cons.inj hx
      exact ⟨[], _, rfl, .nil, h⟩
    | cons _ t₁ =>
      rw [List.cons_append, List.cons.injEq] at hx
      obtain ⟨rfl, hx⟩ := hx
      obtain ⟨u₁, u₂, rfl, h₁, h₂⟩ := hi hx
      exact ⟨_ :: u₁, u₂, rfl, .cons _ h₁, h₂⟩
  case swap d d' t =>
    cases t₁ with
    | nil       => exact absurd (List.cons.inj hx).left (ha d)
    | cons _ t₁ =>
      rw [List.cons_append, List.cons.injEq] at hx
      obtain ⟨rfl, hx⟩ := hx
      cases t₁ with
      | nil       => exact absurd (List.cons.inj hx).left (ha d')
      | cons _ t₁ =>
        rw [List.cons_append, List.cons.injEq] at hx
        obtain ⟨rfl, rfl⟩ := hx
        exact ⟨.get c d' :: .get c d :: t₁, t₂, rfl, .swap d d' t₁, .refl t₂⟩
  case trans hi₁ hi₂ =>
    obtain ⟨u₁, u₂, hu, h₁, h₂⟩ := hi₁ hx
    obtain ⟨v₁, v₂, hv, h₁', h₂'⟩ := hi₂ hu.symm
    exact ⟨v₁, v₂, hv, h₁.trans h₁', h₂.trans h₂'⟩

theorem eq_of_others (h : Shuffles c t t') (ht : ∀ d, .get c d ∉ t) : t' = t := by
  induction h
  case nil => rfl
  case cons a _ hi => rw [hi fun d hd => ht d (List.mem_cons_of_mem _ hd)]
  case swap d _ _ => exact absurd List.mem_cons_self (ht d)
  case trans h₁ _ hi₁ hi₂ =>
    have he := hi₁ ht
    rw [hi₂ (he ▸ ht), he]

theorem exists_perm (h : Shuffles c (ds.map (.get c) : List (Act E)) t) :
    ∃ ds' : List Bytes, ds'.Perm ds ∧ t = ds'.map (.get c) := by
  have hp := h.perm
  have hm : ∀ act ∈ t, ∃ d, act = .get c d := by
    intro act ha
    have ⟨d, _, hd⟩ := List.mem_map.mp (hp.mem_iff.mpr ha)
    exact ⟨d, hd.symm⟩
  obtain ⟨ds', rfl⟩ : ∃ ds' : List Bytes, t = ds'.map (.get c) := by
    clear h hp
    induction t
    case nil => exact ⟨[], rfl⟩
    case cons act t hi =>
      obtain ⟨d, rfl⟩ := hm act List.mem_cons_self
      obtain ⟨ds', rfl⟩ := hi fun act ha => hm act (List.mem_cons_of_mem _ ha)
      exact ⟨d :: ds', rfl⟩
  refine ⟨ds', ?_, rfl⟩
  have hf := (hp.map fun act : Act E => act.gets c).flatten
  have hg (l : List Bytes) : ((l.map (.get c)).map fun act : Act E => act.gets c).flatten = l := by
    have he : ((fun act : Act E => act.gets c) ∘ .get c) = fun d => [d] := funext fun _ => if_pos rfl
    rw [List.map_map, he, ← List.flatMap_def, List.flatMap_singleton']
  rw [hg, hg] at hf
  exact hf.symm

end Shuffles

-- The program does the actions of the script in whatever order its datagrams come.
def Tolerates (μ : Medium) (p : Nat) (x : Prog E α) (t : List (Act E)) (y : Prog E α) : Prop :=
  ∀ t', Shuffles (.udp p) t t' → Performs μ p x t' y

namespace Tolerates

theorem performs {x y : Prog E α} (h : Tolerates μ p x t y) : Performs μ p x t y :=
  h t (.refl t)

theorem of_performs {x y : Prog E α} (h : Performs μ p x t y) (ht : ∀ d, .get (.udp p) d ∉ t) :
    Tolerates μ p x t y := by
  intro t' hs
  rwa [hs.eq_of_others ht]

theorem note {k y : Prog E α} (h : Tolerates μ p k t y) : Tolerates μ p (.note e k) (.note e :: t) y := by
  intro t' hs
  rw [← List.nil_append (.note e :: t)] at hs
  obtain ⟨u₁, u₂, rfl, h₁, h₂⟩ := hs.split (by simp)
  rw [h₁.perm.symm.eq_nil]
  exact .note (h u₂ h₂)

-- Two programs one after the other, the second of which does not begin with a datagram.
theorem seq {x : Prog E α} {f : α → Prog E β} {z : Prog E β} (hx : Tolerates μ p x t (.ret v))
    (hf : Tolerates μ p (f v) t' z) (ht : ∀ d u, t' ≠ .get (.udp p) d :: u) : Tolerates μ p (x >>= f) (t ++ t') z := by
  intro t₁ hs
  cases t' with
  | nil         =>
    rw [List.append_nil] at hs
    exact (hx t₁ hs).map (hf.performs.eq_of_nil)
  | cons act t' =>
    obtain ⟨u₁, u₂, rfl, h₁, h₂⟩ := hs.split fun d hd => ht d t' (by rw [hd])
    exact (hx u₁ h₁).seq (hf _ (.cons act h₂))

theorem map {x : Prog E α} {f : α → Prog E β} {z : Prog E β} (hx : Tolerates μ p x t (.ret v)) (hf : f v = z) :
    Tolerates μ p (x >>= f) t z :=
  fun t' hs => (hx t' hs).map hf

-- Where the program goes on.
theorem tail {x y : Prog E α} {k : Prog E α} (h : Tolerates μ p x (act :: t) y)
    (hk : ∀ u, Performs μ p x (act :: u) y → Performs μ p k u y) : Tolerates μ p k t y :=
  fun u hs => hk u (h _ (.cons act hs))

end Tolerates

theorem Gathers.tolerates {x y : Prog E α} (h : Gathers μ p x ds (act :: t) y) (ha : ∀ d, act ≠ .get (.udp p) d)
    (ht : ∀ d, .get (.udp p) d ∉ t) : Tolerates μ p x (ds.map (.get (.udp p)) ++ act :: t) y := by
  intro t' hs
  obtain ⟨u₁, u₂, rfl, h₁, h₂⟩ := hs.split ha
  obtain ⟨ds', hp, rfl⟩ := h₁.exists_perm
  rw [h₂.eq_of_others ht]
  exact h ds' hp

-- The first messages from a channel are these ones.
def refill (c : Chan) : List Bytes → List (Act E) → List (Act E)
  | [],      t               => t
  | _ :: _,  []              => []
  | d :: ds, .get c' m :: t  => if c' = c then .get c d :: refill c ds t else .get c' m :: refill c (d :: ds) t
  | d :: ds, .put outs :: t  => .put outs :: refill c (d :: ds) t
  | d :: ds, .note e :: t    => .note e :: refill c (d :: ds) t
  | d :: ds, .timeout :: t   => .timeout :: refill c (d :: ds) t

theorem refill_nil (c : Chan) (ds : List Bytes) : refill c ds ([] : List (Act E)) = [] := by
  cases ds <;> rfl

theorem refill_none (c : Chan) (t : List (Act E)) : refill c [] t = t := by
  cases t <;> rfl

theorem refill_get (c : Chan) (d m : Bytes) (ds : List Bytes) (t : List (Act E)) :
    refill c (d :: ds) (.get c m :: t) = .get c d :: refill c ds t := by
  rw [refill, if_pos rfl]

theorem refill_other (ha : ∀ d, act ≠ .get c d) (ds : List Bytes) (t : List (Act E)) :
    refill c ds (act :: t) = act :: refill c ds t := by
  cases ds with
  | nil       => rw [refill_none, refill_none]
  | cons d ds =>
    cases act with
    | get c' m =>
      have hc : c' ≠ c := fun hc => ha m (by rw [hc])
      rw [refill, if_neg hc]
    | _ => rfl

theorem refill_eq_get (h : refill c ds t = .get c m :: u) : ∃ m' u', t = .get c m' :: u' := by
  cases t with
  | nil        => simp [refill_nil] at h
  | cons act t =>
    by_cases ha : ∃ d, act = .get c d
    case pos =>
      obtain ⟨d, rfl⟩ := ha
      exact ⟨d, t, rfl⟩
    case neg =>
      rw [refill_other fun d hd => ha ⟨d, hd⟩] at h
      exact absurd ⟨m, (List.cons.inj h).left⟩ ha

theorem refill_eq_other (ha : ∀ d, act ≠ .get c d) (h : refill c ds t = act :: u) : ∃ t', t = act :: t' := by
  cases t with
  | nil      => simp [refill_nil] at h
  | cons b t =>
    by_cases hb : ∃ d, b = .get c d
    case pos =>
      obtain ⟨d, rfl⟩ := hb
      cases ds with
      | nil      =>
        rw [refill_none] at h
        exact absurd (List.cons.inj h).left.symm (ha d)
      | cons e _ =>
        rw [refill_get] at h
        exact absurd (List.cons.inj h).left.symm (ha e)
    case neg =>
      rw [refill_other fun d hd => hb ⟨d, hd⟩] at h
      exact ⟨t, by rw [(List.cons.inj h).left]⟩

theorem refill_gets (h : U.length ≤ ds.length) (t : List (Act E)) : refill c U (ds.map (.get c) ++ t) =
    U.map (.get c) ++ ((ds.drop U.length).map (.get c) ++ t) := by
  induction U generalizing ds
  case nil => simp [refill_none]
  case cons d U hi =>
    cases ds with
    | nil       => simp at h
    | cons e ds =>
      rw [List.map_cons, List.cons_append, refill_get, hi (by simpa using h)]
      rfl

-- The messages that the script has anyway.
theorem refill_append (ha : t.flatMap (Script.Act.gets c) = ds ++ (V ++ rest)) (hl : U.length = ds.length) :
    refill c (U ++ V) t = refill c U t := by
  induction t generalizing U ds V
  case nil =>
    rw [refill_nil, refill_nil]
  case cons act t hi =>
    by_cases hg : ∃ d, act = .get c d
    case neg =>
      have hne d : act ≠ .get c d := fun hd => hg ⟨d, hd⟩
      have hn : act.gets c = [] := by
        cases act with
        | get c' m => exact if_neg fun hc => hg ⟨m, by rw [hc]⟩
        | _        => rfl
      rw [List.flatMap_cons, hn, List.nil_append] at ha
      rw [refill_other hne, refill_other hne, hi ha hl]
    case pos =>
      obtain ⟨d, rfl⟩ := hg
      have hd : (.get c d : Act E).gets c = [d] := if_pos rfl
      rw [List.flatMap_cons, hd, List.singleton_append] at ha
      cases U with
      | cons e U =>
        cases ds with
        | nil       => simp at hl
        | cons f ds =>
          rw [List.cons_append, List.cons.injEq] at ha
          rw [List.cons_append, refill_get, refill_get, hi ha.right (by simpa using hl)]
      | nil =>
        obtain rfl : ds = [] := List.eq_nil_of_length_eq_zero (by rw [← hl]; rfl)
        cases V with
        | nil      => rfl
        | cons v V =>
          rw [List.nil_append, List.cons_append, List.cons.injEq] at ha
          obtain ⟨rfl, ha⟩ := ha
          have hv : refill c V t = refill c [] t := hi (U := []) ha rfl
          rw [List.nil_append, refill_get, hv, refill_none, refill_none]

-- Where the program can only begin with one action, so does the script.
theorem Tolerates.first {x y : Prog E α} (h : Tolerates μ p x (refill (.udp p) U t) y) (hy : y.Ended)
    (ha : ∀ d, act ≠ .get (.udp p) d)
    (hx : ∀ z u, Prog.Ended z → Performs μ p x u z → ∃ u', u = act :: u') : ∃ t', t = act :: t' := by
  obtain ⟨_, hu⟩ := hx y _ hy h.performs
  exact refill_eq_other ha hu

-- Where the program has taken any one of the first messages.
theorem Tolerates.take {x y k : Prog E α} {d e : Bytes}
    (h : Tolerates μ p x (refill (.udp p) U (.get (.udp p) d :: (ds.map (.get (.udp p)) ++ t))) y)
    (hl : U.length ≤ ds.length + 1) (hj : U[j]? = some e)
    (hk : ∀ u, Performs μ p x (.get (.udp p) e :: u) y → Performs μ p k u y) :
    Tolerates μ p k (refill (.udp p) (U.eraseIdx j) (ds.map (.get (.udp p)) ++ t)) y := by
  have ⟨hlt, hget⟩ := List.getElem?_eq_some_iff.mp hj
  have herase : (U.eraseIdx j).length = U.length - 1 := List.length_eraseIdx_of_lt hlt
  have hdrop : (d :: ds).drop U.length = ds.drop (U.eraseIdx j).length := by
    rw [herase, show U.length = (U.length - 1) + 1 by omega, List.drop_succ_cons, Nat.add_sub_cancel]
  have hperm : (e :: U.eraseIdx j).Perm U := hget ▸ List.getElem_cons_eraseIdx_perm hlt
  rw [← List.cons_append, ← List.map_cons, refill_gets (by simpa using hl), hdrop] at h
  intro t' hs
  rw [refill_gets (by omega)] at hs
  exact hk _ (h _ ((Shuffles.of_perm hperm.symm _).trans (.cons _ hs)))

-- An event, and an action of the same kind that may get another datagram.
def Resembles (μ : Medium) (p : Nat) (e : Event E) (a : Act E) : Prop :=
  Matches μ p e a ∨ ∃ d d', e = .took (μ.copy p d) ∧ a = .get (.udp p) d'

-- A network that is where its plan says but for the order of the datagrams before each process.
structure Reordered (μ : Medium) (stop : Nat → Prog E Unit) (s : Net E) (a : Plan E) : Prop where
  tcp    : Carried s a
  awaits : ∀ p, ∃ U, s.udp p = U.map (μ.copy p) ∧ U.length = (a.queue (.udp p)).length ∧
    Tolerates μ p (s.prog p) (refill (.udp p) U (a.todo p)) (stop p)
  events : ∀ p, List.Forall₂ (Resembles μ p) (s.events p) (a.done p)

-- A process that waits for a datagram waits for all those that are before it.
def Phased (a : Plan E) : Prop :=
  ∀ p d t, a.todo p = .get (.udp p) d :: t →
    ∃ (ds : List Bytes) (u : List (Act E)), a.todo p = ds.map (.get (.udp p)) ++ u ∧
      (a.queue (.udp p)).length ≤ ds.length

namespace Reordered

variable (hall : Settles w a) (hc : a.Conserves w)
include hall hc

-- What the script still gets is before the process, or comes later.
theorem gets_todo (p : Nat) :
    (a.todo p).flatMap (Script.Act.gets (.udp p)) = a.queue (.udp p) ++ coming w a p := by
  have ⟨hr, hs⟩ := hall p
  have hc := hc (.udp p)
  rw [hr] at hc
  rw [Script.State.script, Script.State.script, List.flatMap_append, List.flatMap_append, hc, List.append_assoc,
    List.append_cancel_left_eq] at hs
  exact hs.symm

-- A process does an action that takes no datagram.
theorem after (h : Reordered μ stop s a) (o : a.Owned w) (ht : a.todo p = act :: t) {k : Prog E Unit} {e : Event E}
    {tcp : Nat → Nat → Bytes} {udp : Nat → List Bytes} (hg : ∀ q, act.gets (.udp q) = [])
    (hk : ∀ U, Tolerates μ p (s.prog p) (act :: U) (stop p) → Tolerates μ p k U (stop p)) (he : Matches μ p e act)
    (htcp : ∀ q r, tcp q r = (act.effect a.queue (.tcp q r)).flatten)
    (hudp : ∀ q, udp q = s.udp q ++ (act.puts (.udp q)).map (μ.copy q)) :
    Reordered μ stop { s.advance p k e with tcp, udp } (a.after p act t) where
  tcp    := htcp
  awaits := by
    intro q
    obtain ⟨U, hU, hl, hx⟩ := h.awaits q
    have hcom := coming_after o ht q
    have htodo := gets_todo hall hc q
    rw [hcom] at htodo
    refine ⟨U ++ act.puts (.udp q), ?_, ?_, ?_⟩
    · show udp q = _
      rw [hudp, hU, List.map_append]
    · show _ = ((act.effect a.queue) (.udp q)).length
      rw [Script.Act.effect_puts act (hg q), List.length_append, List.length_append, hl]
    · have hne d : act ≠ .get (.udp q) d := by
        rintro rfl
        simpa [Script.Act.gets] using hg q
      rw [← refill_append htodo hl] at hx
      by_cases hq : q = p
      case pos =>
        subst hq
        rw [ht, refill_other hne] at hx
        simpa [Net.advance, Script.State.after] using hk _ hx
      case neg => simpa [Net.advance, Script.State.after, Function.update_of_ne hq] using hx
  events := by
    intro q
    have hs : Net.events { s.advance p k e with tcp, udp } q = s.events q ++ if q = p then [e] else [] :=
      Net.events_advance s p k e q
    rw [hs]
    by_cases hq : q = p
    case pos =>
      subst hq
      simpa [Script.State.after] using List.rel_append (h.events q) (.cons (.inl he) .nil)
    case neg => simpa [Script.State.after, Function.update_of_ne hq, hq] using h.events q

omit hall in
-- A process takes one of its datagrams, and its plan the first of the queue.
theorem after_take (h : Reordered μ stop s a) (hph : Phased a) (o : a.Owned w) (ha : a.Agrees w)
    (he : ∀ p, (stop p).Ended) (hm : ∀ p, μ.mayTimeout p = false) (hp : s.prog p = .recvfrom len next l k)
    (hj : (s.udp p)[j]? = some d) : ∃ a', a.Steps a' ∧
      Reordered μ stop { s.advance p (.received len next l k (some d)) (.took d) with
        udp := Function.update s.udp p ((s.udp p).eraseIdx j) } a' := by
  obtain ⟨U, hU, hl, hx⟩ := h.awaits p
  -- The script of the process goes on with a datagram.
  obtain ⟨e, u, ht⟩ : ∃ e u, a.todo p = .get (.udp p) e :: u := by
    have hperf := hx.performs
    have hend := he p
    generalize hy : refill (.udp p) U (a.todo p) = y at hperf
    generalize stop p = z at hperf hend
    rw [hp] at hperf
    cases hperf with
    | refl            => contradiction
    | take            => exact refill_eq_get hy
    | timeout himp _  => simp [hm p] at himp
  obtain ⟨ds, v, hrun, hlen⟩ := hph p e u ht
  rw [hU, List.getElem?_map, Option.map_eq_some_iff] at hj
  obtain ⟨x, hget, rfl⟩ := hj
  have hlt := (List.getElem?_eq_some_iff.mp hget).choose
  cases hq : a.queue (.udp p) with
  | nil      =>
    rw [hq, List.length_nil] at hl
    omega
  | cons m r =>
    obtain rfl := ha.head o hc ht hq
    cases ds with
    | nil       => simp [hq] at hlen
    | cons f ds =>
      rw [List.map_cons, List.cons_append] at hrun
      obtain ⟨hf, hu⟩ := List.cons.inj (ht.symm.trans hrun)
      obtain ⟨_, rfl⟩ := Script.Act.get.inj hf
      subst hu
      rw [← hl, List.length_cons] at hlen
      refine ⟨_, ⟨p, .act ht (by simp [Script.Act.Enabled, hq])⟩, fun q r => ?_, fun q => ?_, fun q => ?_⟩
      · simpa [Script.State.after, Script.Act.effect, Net.advance] using h.tcp q r
      · by_cases hqp : q = p
        case neg =>
          obtain ⟨V, hV, hl, hx⟩ := h.awaits q
          refine ⟨V, ?_, ?_, ?_⟩
          · simpa [Net.advance, Function.update_of_ne hqp] using hV
          · simpa [Script.State.after, Script.Act.effect, Ne.symm hqp, hqp] using hl
          · simpa [Net.advance, Script.State.after, Function.update_of_ne hqp] using hx
        case pos =>
          subst hqp
          refine ⟨U.eraseIdx j, ?_, ?_, ?_⟩
          · simp [hU, List.eraseIdx_map]
          · rw [List.length_eraseIdx_of_lt hlt, hl, hq]
            simp [Script.State.after, Script.Act.effect, hq]
          · rw [ht] at hx
            have htake u (hu : Performs μ q (s.prog q) (.get (.udp q) x :: u) (stop q)) :
                Performs μ q (.received len next l k (some (μ.copy q x))) u (stop q) := by
              rw [hp] at hu
              cases hu with | take _ hk => exact hk
            have hk := hx.take hlen hget htake
            simpa [Net.advance, Script.State.after] using hk
      · have hs : Net.events { s.advance p (.received len next l k (some (μ.copy p x))) (.took (μ.copy p x)) with
              udp := Function.update s.udp p ((s.udp p).eraseIdx j) } q =
            s.events q ++ if q = p then [.took (μ.copy p x)] else [] :=
          Net.events_advance s p (.received len next l k (some (μ.copy p x))) (.took (μ.copy p x)) q
        rw [hs]
        by_cases hqp : q = p
        case pos =>
          subst hqp
          simpa [Script.State.after] using List.rel_append (h.events q) (.cons (.inr ⟨x, _, rfl, rfl⟩) .nil)
        case neg => simpa [Script.State.after, Function.update_of_ne hqp, hqp] using h.events q

-- Whatever the network does is a step of its plan.
theorem step (h : Reordered μ stop s a) (hph : Phased a) (o : a.Owned w) (ha : a.Agrees w)
    (he : ∀ p, (stop p).Ended) (hm : ∀ p, μ.mayTimeout p = false) (hd : μ.mayDrop = false)
    (hs : Net.step μ s l = some s') : ∃ a', a.Steps a' ∧ Reordered μ stop s' a' := by
  cases Net.moves_iff.mp hs with
  | @note p e k hp =>
    obtain ⟨t, ht⟩ : ∃ t, a.todo p = .note e :: t := by
      obtain ⟨U, _, _, hx⟩ := h.awaits p
      exact hx.first (he p) (by simp) fun z t hz hx => by
        rw [hp] at hx
        cases hx with
        | refl   => contradiction
        | note _ => exact ⟨_, rfl⟩
    refine ⟨_, ⟨p, .act ht trivial⟩, h.after hall hc o ht (fun _ => rfl) (fun U hx => hx.tail fun u hu => ?_) .note
      h.tcp fun q => (List.append_nil _).symm⟩
    rw [hp] at hu
    cases hu with | note hk => exact hk
  | @sendto p dest d k hp =>
    obtain ⟨t, ht⟩ : ∃ t, a.todo p = .put (μ.outs p dest d) :: t := by
      obtain ⟨U, _, _, hx⟩ := h.awaits p
      exact hx.first (he p) (by simp) fun z t hz hx => by
        rw [hp] at hx
        cases hx with
        | refl     => contradiction
        | sendto _ => exact ⟨_, rfl⟩
    refine ⟨_, ⟨p, .act ht trivial⟩, h.after hall hc o ht (fun _ => rfl) (fun U hx => hx.tail fun u hu => ?_) .sendto
      (fun q r => ?_) fun q => congrArg (s.udp q ++ ·) (outs_copies μ p dest d q)⟩
    · rw [hp] at hu
      cases hu with | sendto hk => exact hk
    · simpa [Script.Act.effect, Sim.outsOn_tcp] using h.tcp q r
  | @send p dest m k hp =>
    obtain ⟨t, ht⟩ : ∃ t, a.todo p = .put [(.tcp p dest, m)] :: t := by
      obtain ⟨U, _, _, hx⟩ := h.awaits p
      exact hx.first (he p) (by simp) fun z t hz hx => by
        rw [hp] at hx
        cases hx with
        | refl   => contradiction
        | send _ => exact ⟨_, rfl⟩
    refine ⟨_, ⟨p, .act ht trivial⟩, h.after hall hc o ht (fun _ => rfl) (fun U hx => hx.tail fun u hu => ?_) .send
      (Carried.send h.tcp p dest m) fun q => ?_⟩
    · rw [hp] at hu
      cases hu with | send hk => exact hk
    · simp [Script.Act.puts, Script.outsOn]
  | @recv p src len k hp hne =>
    obtain ⟨m, t, ht, hlen⟩ : ∃ m t, a.todo p = .get (.tcp src p) m :: t ∧ m.length = len := by
      obtain ⟨U, _, _, hx⟩ := h.awaits p
      have hperf := hx.performs
      have hend := he p
      generalize hy : refill (.udp p) U (a.todo p) = y at hperf
      generalize stop p = z at hperf hend
      rw [hp] at hperf
      cases hperf with
      | refl         => contradiction
      | recv len _ _ =>
        obtain ⟨t, ht⟩ := refill_eq_other (by simp) hy
        exact ⟨_, t, ht, len⟩
    subst hlen
    cases hq : a.queue (.tcp src p) with
    | nil      => simp [h.tcp src p, hq] at hne
    | cons x r =>
      obtain rfl := ha.head o hc ht hq
      have hx : (s.tcp src p).take x.length = x := by simp [h.tcp src p, hq]
      rw [hx]
      refine ⟨_, ⟨p, .act ht (by simp [Script.Act.Enabled, hq])⟩, h.after hall hc o ht
        (fun q => by simp [Script.Act.gets]) (fun U hx => hx.tail fun u hu => ?_) .recv (Carried.recv h.tcp hq)
        fun q => (List.append_nil _).symm⟩
      rw [hp] at hu
      cases hu with | recv _ _ hk => exact hk
  | take hp hj   => exact h.after_take hc hph o ha he hm hp hj
  | timeout _ ht => simp [hm] at ht
  | drop ht      => simp [hd] at ht

theorem reaches (h : Reordered μ stop s a) (hph : ∀ a', a.Reaches a' → Phased a') (o : a.Owned w) (ha : a.Agrees w)
    (he : ∀ p, (stop p).Ended) (hm : ∀ p, μ.mayTimeout p = false) (hd : μ.mayDrop = false) (hr : Net.Reaches μ s s') :
    ∃ a', a.Reaches a' ∧ Reordered μ stop s' a' := by
  induction hr
  case refl => exact ⟨a, .refl, h⟩
  case tail _ st hi =>
    have ⟨a₁, r₁, h₁⟩ := hi
    have ⟨_, st⟩ := st
    have ⟨a₂, st₂, h₂⟩ := h₁.step (hall.reaches r₁) (hc.reaches o r₁) (hph a₁ r₁) (o.reaches r₁) (ha.reaches r₁) he hm
      hd st
    exact ⟨a₂, r₁.tail st₂, h₂⟩

omit hall hc

-- A process that is to do something possible can do something.
theorem can_step (h : Reordered μ stop s a) (hm : ∀ p, μ.mayTimeout p = false) (ht : a.todo p = act :: t)
    (en : act.Enabled a.queue) : ∃ s', Net.Steps μ s s' := by
  obtain ⟨U, hU, hl, hx⟩ := h.awaits p
  have hperf := hx.performs
  generalize hy : s.prog p = y at hperf
  by_cases ha : ∃ d, act = .get (.udp p) d
  case pos =>
    obtain ⟨d, rfl⟩ := ha
    cases U with
    | nil      =>
      have hq : a.queue (.udp p) = [] := List.eq_nil_of_length_eq_zero hl.symm
      simp [Script.Act.Enabled, hq] at en
    | cons x U =>
      rw [ht, refill_get] at hperf
      cases hperf with | take _ _ =>
      exact ⟨_, .take p 0, Net.moves_iff.mpr (.take hy (by rw [hU]; rfl))⟩
  case neg =>
    rw [ht, refill_other fun d hd => ha ⟨d, hd⟩] at hperf
    cases hperf
    case note                     => exact ⟨_, .run p, Net.moves_iff.mpr (.note hy)⟩
    case sendto                   => exact ⟨_, .run p, Net.moves_iff.mpr (.sendto hy)⟩
    case send                     => exact ⟨_, .run p, Net.moves_iff.mpr (.send hy)⟩
    case take                     => exact absurd ⟨_, rfl⟩ ha
    case timeout impatient _ _    => exact absurd impatient (Bool.eq_false_iff.mp (hm p))
    case recv src l m len pos k _ =>
      obtain ⟨r, hq⟩ : ∃ r, a.queue (.tcp src p) = m :: r := List.head?_eq_some_iff.mp en
      have hne : s.tcp src p ≠ [] := by
        rw [h.tcp, hq, List.flatten_cons]
        intro he
        have := congrArg List.length he
        rw [List.length_append, List.length_nil] at this
        omega
      exact ⟨_, .run p, Net.moves_iff.mpr (.recv hy hne)⟩

theorem ended (h : Reordered μ stop s a) (he : ∀ p, (stop p).Ended) (ht : a.todo p = []) : (s.prog p).Ended := by
  obtain ⟨U, _, _, hx⟩ := h.awaits p
  have hperf := hx.performs
  rw [ht, refill_nil] at hperf
  exact hperf.eq_of_nil ▸ he p

theorem todo_of_ended (h : Reordered μ stop s a) (he : (s.prog p).Ended) : a.todo p = [] := by
  obtain ⟨U, _, _, hx⟩ := h.awaits p
  have hperf := hx.performs
  generalize hy : s.prog p = y at hperf he
  generalize hz : refill (.udp p) U (a.todo p) = z at hperf
  cases hperf with
  | refl =>
    cases ht : a.todo p with
    | nil        => rfl
    | cons act t =>
      rw [ht] at hz
      have hl := congrArg List.length hz
      by_cases ha : ∃ d, act = .get (.udp p) d
      case neg => simp [refill_other fun d hd => ha ⟨d, hd⟩] at hl
      case pos =>
        obtain ⟨d, rfl⟩ := ha
        cases U with
        | nil      => simp [refill_none] at hl
        | cons _ _ => simp [refill_get] at hl
  | _ => contradiction

theorem not_stuck (h : Reordered μ stop s a) (hm : ∀ p, μ.mayTimeout p = false) (he : ∀ p, (stop p).Ended)
    (c : a.Completes) (n : Nat) : ¬Net.Stuck μ n s := by
  intro ⟨⟨p, _, hp⟩, hs⟩
  cases c.not_stuck
  case inl f  => exact hp (h.ended he (f p))
  case inr st =>
    have ⟨_, q, st⟩ := st
    cases st with | act ht en =>
    have ⟨s', st⟩ := h.can_step hm ht en
    exact hs s' st

theorem start {prog : Nat → Prog E Unit} {script : Nat → List (Act E)}
    (h : ∀ p, Tolerates μ p (prog p) (script p) (stop p)) : Reordered μ stop (.start prog) (.start script) where
  tcp    := fun _ _ => rfl
  awaits := fun p => ⟨[], rfl, rfl, by rw [refill_none]; exact h p⟩
  events := fun _ => .nil

end Reordered
end Process
