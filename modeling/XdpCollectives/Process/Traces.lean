import XdpCollectives.Process.Simulation

-- What can be seen of a program, whatever the network does.
namespace Process

variable {E : Type} {μ : Medium} {s s' : Net E} {p : Nat}

-- One event takes the program from where it is to another place.
inductive Goes : Prog E α → Event E → Prog E α → Prop
  | note    : Goes (.note e k) (.note e) k
  | sendto  : Goes (.sendto dest d k) (.sendto dest d) k
  | send    : Goes (.send dest m k) (.send dest m) k
  | recv    : Goes (.recv src len k) (.recv src m) (k m)
  | took    : Goes (.recvfrom len next l k) (.took d) (.received len next l k (some d))
  | timeout : Goes (.recvfrom len next l k) .timeout (.received len next l k none)

inductive Does : Prog E α → List (Event E) → Prog E α → Prop
  | refl : Does x [] x
  | step {e : Event E} {t : List (Event E)} {x y z : Prog E α} (h : Goes x e y) (ht : Does y t z) : Does x (e :: t) z

-- What a repeated receive is given by an event.
inductive Input : Event E → Option Bytes → Prop
  | took    : Input (.took d) (some d)
  | timeout : Input .timeout none

theorem Goes.of_bind {x : Prog E α} {f : α → Prog E β} {w : Prog E β} (h : Goes (x.bind f) e w) :
    (∃ a, x = .ret a) ∨ ∃ y, Goes x e y ∧ w = y.bind f := by
  cases x with
  | ret a    => exact .inl ⟨a, rfl⟩
  | exit     => contradiction
  | fault    => contradiction
  | recvfrom =>
    right
    cases h
    case took    => exact ⟨_, .took, (Prog.received_bind ..).symm⟩
    case timeout => exact ⟨_, .timeout, (Prog.received_bind ..).symm⟩
  | _ =>
    right
    cases h
    exact ⟨_, by constructor, rfl⟩

namespace Does

theorem trans {x y z : Prog E α} (hx : Does x t y) (hy : Does y t' z) : Does x (t ++ t') z := by
  induction hx
  case refl       => exact hy
  case step h _ hi => exact .step h (hi hy)

theorem of_ret {y : Prog E α} (h : Does (.ret a) t y) : t = [] ∧ y = .ret a := by
  cases h with
  | refl   => exact ⟨rfl, rfl⟩
  | step h => contradiction

theorem of_takeNote {y : Prog E Unit} (h : Does (.takeNote e) t y) :
    t = [] ∧ y = .takeNote e ∨ t = [.note e] ∧ y = .ret () := by
  cases h with
  | refl       => exact .inl ⟨rfl, rfl⟩
  | step hg hd =>
    cases hg
    obtain ⟨rfl, rfl⟩ := hd.of_ret
    exact .inr ⟨rfl, rfl⟩

-- What is done of two programs is done of the first, or all of the first and then of the second.
theorem of_bind {x : Prog E α} {f : α → Prog E β} {z : Prog E β} (h : Does (x.bind f) t z) :
    (∃ y, Does x t y ∧ z = y.bind f) ∨ ∃ t₁ t₂ a, t = t₁ ++ t₂ ∧ Does x t₁ (.ret a) ∧ Does (f a) t₂ z := by
  generalize hw : x.bind f = w at h
  induction h generalizing x
  case refl => exact .inl ⟨x, .refl, hw.symm⟩
  case step h t hi =>
    subst hw
    rcases h.of_bind with ⟨a, rfl⟩ | ⟨y, hy, hw⟩
    · exact .inr ⟨[], _, a, rfl, .refl, .step h t⟩
    · rcases hi hw.symm with ⟨z, h, hz⟩ | ⟨t₁, t₂, a, rfl, h₁, h₂⟩
      · exact .inl ⟨z, .step hy h, hz⟩
      · exact .inr ⟨_, t₂, a, rfl, .step hy h₁, h₂⟩

-- A repeated receive is still going on, or it has ended. `I` is what holds of its variables after what has happened.
theorem of_recvfrom {I : List (Event E) → L → Prop} {next : L → Option Bytes → L ⊕ O} {k : O → Prog E α}
    {y : Prog E α} (h : Does (.recvfrom len next l k) t y)
    (hstep : ∀ u l e d l', I u l → Input e d → next l (d.map (·.take len)) = .inl l' → I (u ++ [e]) l') (hI : I u l) :
    (∃ l', y = .recvfrom len next l' k) ∨ ∃ t₁ e t₂ d l' o, t = t₁ ++ e :: t₂ ∧ I (u ++ t₁) l' ∧ Input e d ∧
      next l' (d.map (·.take len)) = .inr o ∧ Does (k o) t₂ y := by
  generalize hw : Prog.recvfrom len next l k = w at h
  induction h generalizing l u
  case refl => exact .inl ⟨l, hw.symm⟩
  case step e _ _ x _ h ht hi =>
    subst hw
    have ⟨d, hd, hx⟩ : ∃ d, Input e d ∧ x = .received len next l k d := by
      cases h
      case took    => exact ⟨_, .took, rfl⟩
      case timeout => exact ⟨_, .timeout, rfl⟩
    subst hx
    cases hn : next l (d.map (·.take len)) with
    | inl l' =>
      have hr : Prog.recvfrom len next l' k = .received len next l k d := by simp only [Prog.received, hn]
      rcases hi (hstep u l e d l' hI hd hn) hr with h | ⟨t₁, e', t₂, d', l'', o, rfl, h, hrest⟩
      · exact .inl h
      · exact .inr ⟨e :: t₁, e', t₂, d', l'', o, rfl, by rwa [List.append_assoc] at h, hrest⟩
    | inr o =>
      simp only [Prog.received, hn] at ht
      exact .inr ⟨[], e, _, d, l, o, rfl, by rwa [List.append_nil], hd, hn, ht⟩

end Does

-- A script is what an observer sees of some events.
theorem Performs.does {me : Nat} {x y : Prog E α} {t : List (Act E)} (h : Performs μ me x t y) :
    ∃ u, List.Forall₂ (Matches μ me) u t ∧ Does x u y := by
  induction h
  case refl => exact ⟨[], .nil, .refl⟩
  case note hi =>
    have ⟨u, hm, hd⟩ := hi
    exact ⟨_, .cons .note hm, .step .note hd⟩
  case sendto hi =>
    have ⟨u, hm, hd⟩ := hi
    exact ⟨_, .cons .sendto hm, .step .sendto hd⟩
  case send hi =>
    have ⟨u, hm, hd⟩ := hi
    exact ⟨_, .cons .send hm, .step .send hd⟩
  case recv hi =>
    have ⟨u, hm, hd⟩ := hi
    exact ⟨_, .cons .recv hm, .step .recv hd⟩
  case take hi =>
    have ⟨u, hm, hd⟩ := hi
    exact ⟨_, .cons .took hm, .step .took hd⟩
  case timeout hi =>
    have ⟨u, hm, hd⟩ := hi
    exact ⟨_, .cons .timeout hm, .step .timeout hd⟩

-- Whatever a program does is `φ`, and what it returns is `Q`.
def Keeps (φ : Event E → Prop) (x : Prog E α) (Q : α → Prop) : Prop :=
  ∀ t y, Does x t y → (∀ e ∈ t, φ e) ∧ ∀ a, y = .ret a → Q a

namespace Keeps

variable {φ : Event E → Prop} {Q R : α → Prop}

theorem of_goes {x : Prog E α} (hx : ∀ a, x ≠ .ret a) (h : ∀ e y, Goes x e y → φ e ∧ Keeps φ y Q) : Keeps φ x Q := by
  intro t y hd
  cases hd with
  | refl       => exact ⟨fun _ he => absurd he List.not_mem_nil, fun a ha => absurd ha (hx a)⟩
  | step hg hd =>
    have ⟨he, hk⟩ := h _ _ hg
    have ⟨ht, hq⟩ := hk _ _ hd
    exact ⟨List.forall_mem_cons.mpr ⟨he, ht⟩, hq⟩

theorem ret (h : Q a) : Keeps φ (.ret a) Q := by
  intro t y hd
  obtain ⟨rfl, rfl⟩ := hd.of_ret
  exact ⟨fun _ he => absurd he List.not_mem_nil, fun _ ha => Prog.ret.inj ha ▸ h⟩

theorem done (a : α) : Keeps φ (.ret a) fun _ => True :=
  ret trivial

theorem ite {c : Prop} [Decidable c] {x y : Prog E α} (hx : c → Keeps φ x Q) (hy : ¬c → Keeps φ y Q) :
    Keeps φ (if c then x else y) Q := by
  split
  case isTrue h  => exact hx h
  case isFalse h => exact hy h

theorem exit : Keeps φ (.exit : Prog E α) Q :=
  of_goes nofun nofun

theorem fault : Keeps φ (.fault : Prog E α) Q :=
  of_goes nofun nofun

theorem note {k : Prog E α} (h : φ (.note e)) (hk : Keeps φ k Q) : Keeps φ (.note e k) Q := by
  refine of_goes nofun fun e y hg => ?_
  cases hg
  exact ⟨h, hk⟩

theorem sendto {k : Prog E α} (h : φ (.sendto dest d)) (hk : Keeps φ k Q) : Keeps φ (.sendto dest d k) Q := by
  refine of_goes nofun fun e y hg => ?_
  cases hg
  exact ⟨h, hk⟩

theorem send {k : Prog E α} (h : φ (.send dest m)) (hk : Keeps φ k Q) : Keeps φ (.send dest m k) Q := by
  refine of_goes nofun fun e y hg => ?_
  cases hg
  exact ⟨h, hk⟩

theorem recv {k : Bytes → Prog E α} (h : ∀ m, φ (.recv src m)) (hk : ∀ m, Keeps φ (k m) Q) :
    Keeps φ (.recv src len k) Q := by
  refine of_goes nofun fun e y hg => ?_
  cases hg
  exact ⟨h _, hk _⟩

theorem recvfrom {next : L → Option Bytes → L ⊕ O} {k : O → Prog E α} (h : ∀ d, φ (.took d)) (ht : φ .timeout)
    (hk : ∀ o, Keeps φ (k o) Q) : Keeps φ (.recvfrom len next l k) Q := by
  intro t y hd
  generalize hw : Prog.recvfrom len next l k = w at hd
  induction hd generalizing l
  case refl =>
    subst hw
    exact ⟨fun _ he => absurd he List.not_mem_nil, nofun⟩
  case step e u _ x y hg hd hi =>
    subst hw
    have ⟨he, d, hx⟩ : φ e ∧ ∃ d, x = .received len next l k d := by
      cases hg
      case took    => exact ⟨h _, _, rfl⟩
      case timeout => exact ⟨ht, _, rfl⟩
    subst hx
    have ⟨hu, hq⟩ : (∀ e ∈ u, φ e) ∧ ∀ a, y = .ret a → Q a := by
      cases hn : next l (d.map (·.take len)) with
      | inl l' => exact hi (l := l') (by simp only [Prog.received, hn])
      | inr o =>
        simp only [Prog.received, hn] at hd
        exact hk o _ _ hd
    exact ⟨List.forall_mem_cons.mpr ⟨he, hu⟩, hq⟩

theorem bind {x : Prog E β} {R : β → Prop} {f : β → Prog E α} (hx : Keeps φ x R) (hf : ∀ b, R b → Keeps φ (f b) Q) :
    Keeps φ (x >>= f) Q := by
  intro t y hd
  rcases Does.of_bind hd with ⟨z, hz, hy⟩ | ⟨t₁, t₂, b, rfl, h₁, h₂⟩
  · obtain ⟨ht, hr⟩ := hx t z hz
    refine ⟨ht, fun a ha => ?_⟩
    cases z with
    | ret b => exact (hf b (hr b rfl) [] y (hy ▸ .refl)).right a ha
    | _     => simp [hy, Prog.bind] at ha
  · obtain ⟨ht, hr⟩ := hx t₁ _ h₁
    obtain ⟨hu, hq⟩ := hf b (hr b rfl) t₂ y h₂
    exact ⟨fun e he => (List.mem_append.mp he).elim (ht e) (hu e), hq⟩

-- A program that receives nothing can only do what it does in one run.
theorem of_performs {me : Nat} {x : Prog E α} {t : List (Act E)} (h : Performs μ me x t (.ret a))
    (hφ : ∀ act ∈ t, ∀ e, Matches μ me e act → φ e) (hin : ∀ act ∈ t, act.input = none ∧ act ≠ .timeout) :
    Keeps φ x (· = a) := by
  generalize hy : (.ret a : Prog E α) = y at h
  induction h
  case refl =>
    subst hy
    exact .ret rfl
  case note hi =>
    exact .note (hφ _ List.mem_cons_self _ .note)
      (hi (fun act ha => hφ act (List.mem_cons_of_mem _ ha)) (fun act ha => hin act (List.mem_cons_of_mem _ ha)) hy)
  case sendto hi =>
    exact .sendto (hφ _ List.mem_cons_self _ .sendto)
      (hi (fun act ha => hφ act (List.mem_cons_of_mem _ ha)) (fun act ha => hin act (List.mem_cons_of_mem _ ha)) hy)
  case send hi =>
    exact .send (hφ _ List.mem_cons_self _ .send)
      (hi (fun act ha => hφ act (List.mem_cons_of_mem _ ha)) (fun act ha => hin act (List.mem_cons_of_mem _ ha)) hy)
  case recv    => exact absurd (hin _ List.mem_cons_self).left nofun
  case take    => exact absurd (hin _ List.mem_cons_self).left nofun
  case timeout => exact absurd rfl (hin _ List.mem_cons_self).right

theorem imp {ψ : Event E → Prop} (h : Keeps φ x Q) (hφ : ∀ e, φ e → ψ e) : Keeps ψ x Q :=
  fun t y hd => ⟨fun e he => hφ e ((h t y hd).left e he), (h t y hd).right⟩

theorem mono (h : Keeps φ x Q) (hq : ∀ a, Q a → R a) : Keeps φ x R :=
  fun t y hd => ⟨(h t y hd).left, fun a ha => hq a ((h t y hd).right a ha)⟩

end Keeps

namespace Net

theorem mem_of_mem_removed {udp : Nat → List Bytes} (h : d ∈ Function.update udp p ((udp p).eraseIdx j) q) :
    d ∈ udp q := by
  by_cases hq : q = p
  case pos =>
    subst hq
    rw [Function.update_self] at h
    exact List.mem_of_mem_eraseIdx h
  case neg => rwa [Function.update_of_ne hq] at h

-- What a step can do: a datagram gets lost, or one process goes on.
theorem step_cases (h : step μ s l = some s') :
    (s'.prog = s.prog ∧ s'.trace = s.trace ∧ ∀ q, s'.udp q ⊆ s.udp q) ∨
    ∃ p e k, Goes (s.prog p) e k ∧ s'.prog = Function.update s.prog p k ∧ s'.trace = s.trace ++ [(p, e)] ∧
      (∀ d, e = .took d → d ∈ s.udp p) ∧
      ∀ q, ∀ d ∈ s'.udp q, d ∈ s.udp q ∨ ∃ dest d', e = .sendto dest d' ∧ d = μ.copy q d' := by
  cases moves_iff.mp h with
  | note hp      => exact .inr ⟨_, _, _, hp ▸ .note, rfl, rfl, by simp, fun _ _ hd => .inl hd⟩
  | send hp      => exact .inr ⟨_, _, _, hp ▸ .send, rfl, rfl, by simp, fun _ _ hd => .inl hd⟩
  | recv hp _    => exact .inr ⟨_, _, _, hp ▸ .recv, rfl, rfl, by simp, fun _ _ hd => .inl hd⟩
  | timeout hp _ => exact .inr ⟨_, _, _, hp ▸ .timeout, rfl, rfl, by simp, fun _ _ hd => .inl hd⟩
  | drop _ _     => exact .inl ⟨rfl, rfl, fun q d hd => mem_of_mem_removed hd⟩
  | sendto hp    =>
    refine .inr ⟨_, _, _, hp ▸ .sendto, rfl, rfl, by simp, fun q d hd => ?_⟩
    rcases List.mem_append.mp hd with hd | hd
    · exact .inl hd
    · obtain ⟨r, hr, he⟩ := List.mem_map.mp hd
      obtain ⟨_, hr⟩ := List.mem_filter.mp hr
      exact .inr ⟨_, _, rfl, by rw [← he, of_decide_eq_true hr]⟩
  | take hp hj   =>
    refine .inr ⟨_, _, _, hp ▸ .took, rfl, rfl, fun d' hd => ?_, fun q d hd => .inl (mem_of_mem_removed hd)⟩
    cases hd
    exact List.mem_of_getElem? hj

theorem step_trace (h : step μ s l = some s') (hd : μ.mayDrop = false) : ∃ p e, s'.trace = s.trace ++ [(p, e)] := by
  cases moves_iff.mp h with
  | drop hm _ => simp [hd] at hm
  | _         => exact ⟨_, _, rfl⟩

theorem events_append (h : s'.trace = s.trace ++ [(p, e)]) (q : Nat) :
    s'.events q = s.events q ++ if p = q then [e] else [] := by
  simp only [events, h, List.filterMap_append, List.filterMap_cons, List.filterMap_nil]
  congr 1
  split <;> split <;> simp_all

-- In a run, every program does what is in the trace.
theorem does {prog : Nat → Prog E Unit} (h : Reaches μ (.start prog) s) (p : Nat) :
    Does (prog p) (s.events p) (s.prog p) := by
  induction h
  case refl => exact .refl
  case tail s s' _ hs hi =>
    have ⟨l, hs⟩ := hs
    rcases step_cases hs with ⟨hp, ht, _⟩ | ⟨q, e, k, hg, hp, ht, _⟩
    · rw [hp, events, ht]
      exact hi
    · rw [events_append ht, hp]
      by_cases hq : q = p
      case pos =>
        subst hq
        rw [if_pos rfl, Function.update_self]
        exact hi.trans (.step hg .refl)
      case neg =>
        rw [if_neg hq, List.append_nil, Function.update_of_ne (Ne.symm hq)]
        exact hi

-- A run that is given by its steps.
theorem reaches_of_steps {ls : List Label} (h : ls.foldlM (step μ) s = some s') : Reaches μ s s' := by
  induction ls generalizing s
  case nil => exact Option.some.inj h ▸ .refl
  case cons l ls hi =>
    rw [List.foldlM_cons] at h
    have ⟨s₁, h₁, h₂⟩ := Option.bind_eq_some_iff.mp h
    exact .head ⟨l, h₁⟩ (hi h₂)

-- Some process has sent the datagram.
def Sent (μ : Medium) (s : Net E) (q : Nat) (d : Bytes) : Prop :=
  ∃ p dest d', .sendto dest d' ∈ s.events p ∧ d = μ.copy q d'

-- In a run, whatever a process has before it or has taken has been sent.
theorem sent {prog : Nat → Prog E Unit} (h : Reaches μ (.start prog) s) (q : Nat) :
    (∀ d ∈ s.udp q, s.Sent μ q d) ∧ ∀ d, .took d ∈ s.events q → s.Sent μ q d := by
  induction h
  case refl => exact ⟨fun _ hd => absurd hd List.not_mem_nil, fun _ hd => absurd hd List.not_mem_nil⟩
  case tail s s' _ hs hi =>
    obtain ⟨hu, hk⟩ := hi
    obtain ⟨l, hs⟩ := hs
    rcases step_cases hs with ⟨_, ht, hsub⟩ | ⟨p, e, k, _, _, ht, htook, hudp⟩
    · have he r : s'.events r = s.events r := by rw [events, ht, events]
      simp only [Sent, he]
      exact ⟨fun d hd => hu d (hsub q hd), hk⟩
    · have hmono r d (h : s.Sent μ r d) : s'.Sent μ r d := by
        obtain ⟨p', dest, d', hm, hd⟩ := h
        exact ⟨p', dest, d', events_append ht p' ▸ List.mem_append_left _ hm, hd⟩
      refine ⟨fun d hd => ?_, fun d hd => ?_⟩
      · rcases hudp q d hd with hd | ⟨dest, d', rfl, hd⟩
        · exact hmono q d (hu d hd)
        · exact ⟨p, dest, d', by rw [events_append ht, if_pos rfl]; simp, hd⟩
      · rw [events_append ht, List.mem_append] at hd
        rcases hd with hd | hd
        · exact hmono q d (hk d hd)
        · split at hd
          case isTrue hq =>
            subst hq
            exact hmono p d (hu d (htook d (List.mem_singleton.mp hd).symm))
          case isFalse => contradiction

end Net
end Process
