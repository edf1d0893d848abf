import XdpCollectives.Script.Runs

namespace Script

variable {C M E : Type} [DecidableEq C]

-- One order in which a number of processes can do their actions, and the queues before and after.
def Flow : Queues C M → List (Nat × Act C M E) → Queues C M → Prop
  | q, [],          q' => q = q'
  | q, (_, a) :: g, q' => a.Enabled q ∧ Flow (a.effect q) g q'

-- The part of one process.
def proj (p : Nat) (g : List (Nat × Act C M E)) : List (Act C M E) :=
  g.filterMap fun e => if e.1 = p then some e.2 else none

variable {g g₁ g₂ : List (Nat × Act C M E)} {q q₁ q₂ q₃ : Queues C M}

theorem Flow.append (h₁ : Flow q₁ g₁ q₂) (h₂ : Flow q₂ g₂ q₃) : Flow q₁ (g₁ ++ g₂) q₃ := by
  induction g₁ generalizing q₁
  case nil => exact (show q₁ = q₂ from h₁) ▸ h₂
  case cons _ _ hi => exact ⟨h₁.left, hi h₁.right⟩

-- What waits in channels that nothing is got from stays where it is.
theorem Flow.beside {e : Queues C M} (h : Flow q g q') (he : ∀ x ∈ g, ∀ c, x.2.gets c ≠ [] → e c = []) :
    Flow (fun c => e c ++ q c) g fun c => e c ++ q' c := by
  induction g generalizing q
  case nil =>
    obtain rfl : q = q' := h
    rfl
  case cons x g hi =>
    obtain ⟨p, a⟩ := x
    obtain ⟨en, h⟩ := h
    have ha c (hc : a.gets c ≠ []) : e c = [] := he _ List.mem_cons_self c hc
    have hi := hi h fun x hx => he x (List.mem_cons_of_mem _ hx)
    cases a with
    | put outs =>
      refine ⟨trivial, ?_⟩
      simp only [Act.effect, List.append_assoc] at hi ⊢
      exact hi
    | get c m =>
      have hc : e c = [] := ha c (by simp [Act.gets])
      refine ⟨by simpa only [Act.Enabled, hc, List.nil_append] using en, ?_⟩
      have hq : (Act.get c m : Act C M E).effect (fun c => e c ++ q c) =
          fun c' => e c' ++ (Act.get c m : Act C M E).effect q c' := by
        funext c'
        simp only [Act.effect, hc, List.nil_append]
        by_cases h : c' = c
        case pos =>
          subst h
          rw [Function.update_self, Function.update_self, hc, List.nil_append]
        case neg => rw [Function.update_of_ne h, Function.update_of_ne h]
      rw [hq]
      exact hi
    | note    => exact ⟨trivial, hi⟩
    | timeout => exact ⟨trivial, hi⟩

theorem Flow.flatMap {l : List α} {f : α → List (Nat × Act C M E)} (h : ∀ x ∈ l, Flow q (f x) q) :
    Flow q (l.flatMap f) q := by
  induction l
  case nil => rfl
  case cons x l hi =>
    exact (h x List.mem_cons_self).append (hi fun y hy => h y (List.mem_cons_of_mem _ hy))

omit [DecidableEq C] in
@[simp]
theorem proj_nil (p : Nat) : proj p ([] : List (Nat × Act C M E)) = [] := rfl

omit [DecidableEq C] in
theorem proj_cons (p : Nat) (e : Nat × Act C M E) (g) :
    proj p (e :: g) = (if e.1 = p then [e.2] else []) ++ proj p g := by
  simp only [proj, List.filterMap_cons]
  split <;> split <;> simp_all

omit [DecidableEq C] in
theorem proj_append (p : Nat) : proj p (g₁ ++ g₂) = proj p g₁ ++ proj p g₂ :=
  List.filterMap_append

omit [DecidableEq C] in
theorem proj_flatMap (p : Nat) (l : List α) (f : α → List (Nat × Act C M E)) :
    proj p (l.flatMap f) = l.flatMap fun x => proj p (f x) := by
  induction l <;> simp_all [proj_append]

omit [DecidableEq C] in
theorem mem_proj {p : Nat} {a : Act C M E} : a ∈ proj p g ↔ (p, a) ∈ g := by
  rw [proj, List.mem_filterMap]
  constructor
  case mp =>
    intro ⟨(r, b), hm, h⟩
    obtain ⟨rfl, rfl⟩ : r = p ∧ b = a := by simpa using h
    exact hm
  case mpr => exact fun hm => ⟨(p, a), hm, if_pos rfl⟩

omit [DecidableEq C] in
-- What only one process adds to is found in its part.
theorem flatMap_proj {f : Act C M E → List M} {p : Nat} (h : ∀ e ∈ g, e.1 ≠ p → f e.2 = []) :
    (proj p g).flatMap f = g.flatMap fun e => f e.2 := by
  induction g
  case nil => rfl
  case cons e g hi =>
    rw [proj_cons, List.flatMap_append, List.flatMap_cons, hi fun x hx => h x (List.mem_cons_of_mem _ hx)]
    by_cases he : e.1 = p
    case pos => rw [if_pos he, List.flatMap_singleton]
    case neg => rw [if_neg he, h e List.mem_cons_self he, List.flatMap_nil]

-- The processes get from where their parts begin to where they end.
theorem Flow.reaches (h : Flow q g q') (r d : Nat → List (Act C M E)) :
    State.Reaches ⟨fun p => proj p g ++ r p, d, q⟩ ⟨r, fun p => d p ++ proj p g, q'⟩ := by
  induction g generalizing q d
  case nil =>
    obtain rfl : q = q' := h
    simpa using Relation.ReflTransGen.refl
  case cons e g hi =>
    obtain ⟨p, a⟩ := e
    have hs : State.Step p ⟨fun p' => proj p' ((p, a) :: g) ++ r p', d, q⟩
        ⟨fun p' => proj p' g ++ r p', Function.update d p (d p ++ [a]), a.effect q⟩ := by
      have ht : proj p ((p, a) :: g) ++ r p = a :: (proj p g ++ r p) := by simp [proj_cons]
      have hn : Function.update (fun p' => proj p' ((p, a) :: g) ++ r p') p (proj p g ++ r p) =
          fun p' => proj p' g ++ r p' := by
        funext p'
        by_cases hp : p' = p
        case pos => subst hp; simp
        case neg => simp [Function.update_of_ne hp, proj_cons, Ne.symm hp]
      have := State.Step.act (p := p) (s := ⟨fun p' => proj p' ((p, a) :: g) ++ r p', d, q⟩) ht h.left
      simp only [State.after, hn] at this
      exact this
    have hd : (fun p' => Function.update d p (d p ++ [a]) p' ++ proj p' g) =
        fun p' => d p' ++ proj p' ((p, a) :: g) := by
      funext p'
      by_cases hp : p' = p
      case pos => subst hp; simp [proj_cons]
      case neg => simp [Function.update_of_ne hp, proj_cons, Ne.symm hp]
    exact .head ⟨p, hs⟩ (hd ▸ hi h.right _)

-- The processes can do the first parts of their scripts in the order of a flow.
theorem Flow.reaches_start {t : Nat → List (Act C M E)} (h : Flow (fun _ => []) g q)
    (hp : ∀ p, proj p g <+: t p) : ∃ a, (State.start t).Reaches a ∧ ∀ p, a.done p = proj p g := by
  choose r hr using hp
  have hs := h.reaches r fun _ => []
  have ht : (fun p => proj p g ++ r p) = t := funext hr
  rw [ht] at hs
  exact ⟨_, hs, fun _ => List.nil_append _⟩

-- A round of scripts that the processes can complete, from empty queues to empty queues.
def Drains (script : Nat → List (Act C M E)) : Prop :=
  ∃ g, (∀ p, proj p g = script p) ∧ Flow (fun _ => []) g fun _ => []

theorem Drains.append {t₁ t₂ : Nat → List (Act C M E)} (h₁ : Drains t₁) (h₂ : Drains t₂) :
    Drains fun p => t₁ p ++ t₂ p := by
  have ⟨g₁, p₁, f₁⟩ := h₁
  have ⟨g₂, p₂, f₂⟩ := h₂
  exact ⟨g₁ ++ g₂, fun p => by rw [proj_append, p₁, p₂], f₁.append f₂⟩

theorem Drains.flatMap {l : List α} {t : α → Nat → List (Act C M E)} (h : ∀ x ∈ l, Drains (t x)) :
    Drains fun p => l.flatMap fun x => t x p := by
  induction l
  case nil => exact ⟨[], fun _ => rfl, rfl⟩
  case cons x l hi =>
    exact (h x List.mem_cons_self).append (hi fun y hy => h y (List.mem_cons_of_mem _ hy))

theorem Flow.completes {t : Nat → List (Act C M E)} (hp : ∀ p, proj p g = t p)
    (h : Flow (fun _ => []) g q) : (State.start t).Completes := by
  have hr := h.reaches (fun _ => []) fun _ => []
  simp only [List.append_nil, hp] at hr
  exact ⟨_, hr, fun _ => rfl⟩

theorem Drains.completes {t : Nat → List (Act C M E)} (h : Drains t) : (State.start t).Completes := by
  have ⟨_, hp, f⟩ := h
  exact f.completes hp

-- Whatever is put into a channel is got from it, or left there.
theorem Flow.puts_eq_gets {t : Nat → List (Act C M E)} {w : Wiring C} (h : Flow (fun _ => []) g q)
    (hp : ∀ p, proj p g = t p) (o : ∀ p, ∀ a ∈ t p, a.OwnedBy w p) (c : C) :
    (t (w.writer c)).flatMap (Act.puts c) = (t (w.reader c)).flatMap (Act.gets c) ++ q c := by
  have hr := h.reaches (fun _ => []) fun _ => []
  simp only [List.append_nil, hp, List.nil_append] at hr
  exact State.Conserves.reaches (s := .start t) o State.Conserves.start hr c

-- In a round, nothing is left.
theorem Drains.puts_eq_gets {t : Nat → List (Act C M E)} {w : Wiring C} (h : Drains t)
    (o : ∀ p, ∀ a ∈ t p, a.OwnedBy w p) (c : C) :
    (t (w.writer c)).flatMap (Act.puts c) = (t (w.reader c)).flatMap (Act.gets c) := by
  have ⟨g, hp, f⟩ := h
  simpa using f.puts_eq_gets hp o c

-- The actions of one process in a flow.
def tag (p : Nat) (t : List (Act C M E)) : List (Nat × Act C M E) :=
  t.map (p, ·)

omit [DecidableEq C] in
theorem proj_tag (r p : Nat) (t : List (Act C M E)) : proj r (tag p t) = if p = r then t else [] := by
  by_cases h : p = r <;> simp [proj, tag, h, List.filterMap_map]

theorem Flow.puts (q : Queues C M) (p : Nat) (c : C) (ms : List M) :
    Flow q (tag p (ms.map fun m => (.put [(c, m)] : Act C M E))) (Function.update q c (q c ++ ms)) := by
  induction ms generalizing q
  case nil =>
    show q = _
    simp
  case cons m ms hi =>
    have he : (Act.put [(c, m)] : Act C M E).effect q = Function.update q c (q c ++ [m]) := by
      funext c'
      by_cases hc : c' = c
      case pos => subst hc; simp [Act.effect, outsOn]
      case neg => simp [Act.effect, outsOn, hc, Ne.symm hc]
    refine ⟨trivial, ?_⟩
    have := hi (Function.update q c (q c ++ [m]))
    simp only [Function.update_self, Function.update_idem, List.append_assoc, List.singleton_append] at this
    rw [he]
    exact this

-- Putting is always possible.
theorem Flow.of_puts {t : List (Act C M E)} (h : ∀ a ∈ t, ∃ outs, a = .put outs) (q : Queues C M) (p : Nat) :
    ∃ q', Flow q (tag p t) q' ∧ ∀ c, q' c = q c ++ t.flatMap (Act.puts c) := by
  induction t generalizing q
  case nil => exact ⟨q, rfl, by simp⟩
  case cons a t hi =>
    obtain ⟨outs, ha⟩ := h a List.mem_cons_self
    subst ha
    obtain ⟨q', hf, hq⟩ := hi (fun b hb => h b (List.mem_cons_of_mem _ hb)) ((.put outs : Act C M E).effect q)
    refine ⟨q', ⟨trivial, hf⟩, fun c => ?_⟩
    rw [hq, List.flatMap_cons, ← List.append_assoc]
    rfl

theorem Flow.gets {q : Queues C M} {c : C} (ms rest : List M) (p : Nat) (h : q c = ms ++ rest) :
    Flow q (tag p (ms.map fun m => (.get c m : Act C M E))) (Function.update q c rest) := by
  induction ms generalizing q
  case nil =>
    obtain rfl : q c = rest := h
    exact (Function.update_eq_self c q).symm
  case cons m ms hi =>
    refine ⟨by simp [Act.Enabled, h], ?_⟩
    have := hi (q := Function.update q c (q c).tail) (by simp [h])
    rwa [Function.update_idem] at this

theorem Flow.note (q : Queues C M) (p : Nat) (e : E) : Flow q (tag p [(.note e : Act C M E)]) q :=
  ⟨trivial, rfl⟩

-- Parts that concern different channels can be done one after the other. Part `x` finds its channels as
-- they are in `before`, and leaves them as they are in `after x`.
theorem Flow.independent {l : List α} (hl : l.Nodup) {g : α → List (Nat × Act C M E)} (own : α → C → Prop)
    (before : Queues C M) (after : α → Queues C M)
    (hd : ∀ x ∈ l, ∀ y ∈ l, x ≠ y → ∀ c, own x c → ¬own y c)
    (hg : ∀ x ∈ l, ∀ q : Queues C M, (∀ c, own x c → q c = before c) →
      ∃ q', Flow q (g x) q' ∧ (∀ c, own x c → q' c = after x c) ∧ ∀ c, ¬own x c → q' c = q c)
    {q : Queues C M} (hq : ∀ x ∈ l, ∀ c, own x c → q c = before c) :
    ∃ q', Flow q (l.flatMap g) q' ∧ (∀ x ∈ l, ∀ c, own x c → q' c = after x c) ∧
      ∀ c, (∀ x ∈ l, ¬own x c) → q' c = q c := by
  induction l generalizing q
  case nil => exact ⟨q, rfl, by simp, fun _ _ => rfl⟩
  case cons x l hi =>
    have ⟨hx, hl⟩ := List.nodup_cons.mp hl
    have hne y (hy : y ∈ l) : x ≠ y := fun he => hx (he ▸ hy)
    have hxl y (hy : y ∈ l) c (hc : own y c) : ¬own x c :=
      fun ho => hd x List.mem_cons_self y (List.mem_cons_of_mem _ hy) (hne y hy) c ho hc
    have ⟨q₁, f₁, a₁, n₁⟩ := hg x List.mem_cons_self q (hq x List.mem_cons_self)
    have ⟨q₂, f₂, a₂, n₂⟩ := hi hl
      (fun y hy z hz => hd y (List.mem_cons_of_mem _ hy) z (List.mem_cons_of_mem _ hz))
      (fun y hy => hg y (List.mem_cons_of_mem _ hy)) (q := q₁) fun y hy c hc => by
        rw [n₁ c (hxl y hy c hc), hq y (List.mem_cons_of_mem _ hy) c hc]
    refine ⟨q₂, f₁.append f₂, fun y hy c hc => ?_, fun c hc => ?_⟩
    · rcases List.mem_cons.mp hy with rfl | hy
      · rw [n₂ c fun z hz ho => hxl z hz c ho hc, a₁ c hc]
      · exact a₂ y hy c hc
    · rw [n₂ c fun y hy => hc y (List.mem_cons_of_mem _ hy), n₁ c (hc x List.mem_cons_self)]

end Script
