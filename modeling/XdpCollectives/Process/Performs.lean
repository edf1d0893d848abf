import XdpCollectives.Process.Network
import XdpCollectives.Script.Basic

-- Programs that do the actions of a script, and what this says about a network of them.
namespace Process

inductive Chan
  | tcp (p q : Nat)
  | udp (p : Nat)
  deriving DecidableEq, Repr

abbrev Act (E : Type) := Script.Act Chan Bytes E

abbrev Plan (E : Type) := Script.State Chan Bytes E

variable {E : Type}

-- A datagram goes to the channel of every process that gets it.
def Medium.outs (μ : Medium) (p dest : Nat) (d : Bytes) : List (Chan × Bytes) :=
  (μ.reach p dest d).map fun q => (.udp q, d)

-- As process `me`, the program does the actions of the script and goes on as `y`.
inductive Performs (μ : Medium) (me : Nat) : Prog E α → List (Act E) → Prog E α → Prop
  | refl : Performs μ me y [] y
  | note {k : Prog E α} (h : Performs μ me k t y) : Performs μ me (.note e k) (.note e :: t) y
  | sendto {k : Prog E α} (h : Performs μ me k t y) :
      Performs μ me (.sendto dest d k) (.put (μ.outs me dest d) :: t) y
  | send {k : Prog E α} (h : Performs μ me k t y) :
      Performs μ me (.send dest m k) (.put [(.tcp me dest, m)] :: t) y
  | recv {src l : Nat} {k : Bytes → Prog E α} {m : Bytes} (len : m.length = l) (pos : 0 < l)
      (h : Performs μ me (k m) t y) :
      Performs μ me (.recv src l k) (.get (.tcp src me) m :: t) y
  | take {len : Nat} {next : L → Option Bytes → L ⊕ O} {l : L} {k : O → Prog E α} {d : Bytes}
      (patient : μ.mayTimeout me = false)
      (h : Performs μ me (.received len next l k (some (μ.copy me d))) t y) :
      Performs μ me (.recvfrom len next l k) (.get (.udp me) d :: t) y
  | timeout {len : Nat} {next : L → Option Bytes → L ⊕ O} {l : L} {k : O → Prog E α}
      (impatient : μ.mayTimeout me = true) (h : Performs μ me (.received len next l k none) t y) :
      Performs μ me (.recvfrom len next l k) (.timeout :: t) y

namespace Performs

variable {μ : Medium} {me : Nat}

theorem bind {x y : Prog E α} {f : α → Prog E β} {z : Prog E β} (hx : Performs μ me x t y)
    (hf : Performs μ me (y.bind f) t' z) : Performs μ me (x.bind f) (t ++ t') z := by
  induction hx
  case refl                => exact hf
  case note hi             => exact .note (hi hf)
  case sendto hi           => exact .sendto (hi hf)
  case send hi             => exact .send (hi hf)
  case recv len pos _ hi   => exact .recv len pos (hi hf)
  case take hp _ hi        => exact .take hp (Prog.received_bind .. ▸ hi hf)
  case timeout hp _ hi     => exact .timeout hp (Prog.received_bind .. ▸ hi hf)

theorem seq {x : Prog E α} {f : α → Prog E β} {z : Prog E β} (hx : Performs μ me x t (.ret a))
    (hf : Performs μ me (f a) t' z) : Performs μ me (x >>= f) (t ++ t') z :=
  hx.bind hf

theorem map {x : Prog E α} {f : α → Prog E β} {z : Prog E β} (hx : Performs μ me x t (.ret a))
    (hf : f a = z) : Performs μ me (x >>= f) t z := by
  subst hf
  rw [← List.append_nil t]
  exact hx.seq .refl

theorem trans {x y z : Prog E α} (hx : Performs μ me x t y) (hy : Performs μ me y t' z) :
    Performs μ me x (t ++ t') z := by
  induction hx
  case refl              => exact hy
  case note hi           => exact .note (hi hy)
  case sendto hi         => exact .sendto (hi hy)
  case send hi           => exact .send (hi hy)
  case recv len pos _ hi => exact .recv len pos (hi hy)
  case take hp _ hi      => exact .take hp (hi hy)
  case timeout hp _ hi   => exact .timeout hp (hi hy)

theorem eq_of_nil {x y : Prog E α} (h : Performs μ me x [] y) : x = y := by
  cases h
  rfl

-- Between two actions, the program is where it has done the first ones.
theorem split {x y : Prog E α} (h : Performs μ me x (t₁ ++ t₂) y) :
    ∃ z, Performs μ me x t₁ z ∧ Performs μ me z t₂ y := by
  induction t₁ generalizing x
  case nil => exact ⟨x, .refl, h⟩
  case cons a t₁ hi =>
    rw [List.cons_append] at h
    cases h with
    | note h =>
      have ⟨z, h₁, h₂⟩ := hi h
      exact ⟨z, .note h₁, h₂⟩
    | sendto h =>
      have ⟨z, h₁, h₂⟩ := hi h
      exact ⟨z, .sendto h₁, h₂⟩
    | send h =>
      have ⟨z, h₁, h₂⟩ := hi h
      exact ⟨z, .send h₁, h₂⟩
    | recv len pos h =>
      have ⟨z, h₁, h₂⟩ := hi h
      exact ⟨z, .recv len pos h₁, h₂⟩
    | take patient h =>
      have ⟨z, h₁, h₂⟩ := hi h
      exact ⟨z, .take patient h₁, h₂⟩
    | timeout impatient h =>
      have ⟨z, h₁, h₂⟩ := hi h
      exact ⟨z, .timeout impatient h₁, h₂⟩

-- What a program receives determines what it does, and how much it receives.
theorem unique {x : Prog E α} (h : Performs μ me x t (.ret a)) (h' : Performs μ me x t' (.ret b))
    (hi : t.filterMap Script.Act.input <+: t'.filterMap Script.Act.input) : t = t' ∧ a = b := by
  generalize hy : (.ret a : Prog E α) = y at h
  induction h generalizing t'
  case refl =>
    subst hy
    cases h'
    exact ⟨rfl, rfl⟩
  case note hr =>
    cases h' with | note h' =>
    have ⟨ht, ha⟩ := hr h' hi hy
    exact ⟨by rw [ht], ha⟩
  case sendto hr =>
    cases h' with | sendto h' =>
    have ⟨ht, ha⟩ := hr h' hi hy
    exact ⟨by rw [ht], ha⟩
  case send hr =>
    cases h' with | send h' =>
    have ⟨ht, ha⟩ := hr h' hi hy
    exact ⟨by rw [ht], ha⟩
  case recv hr =>
    cases h' with | recv _ _ h' =>
    simp only [List.filterMap_cons, Script.Act.input, List.cons_prefix_cons, Prod.mk.injEq, true_and] at hi
    obtain ⟨rfl, hi⟩ := hi
    have ⟨ht, ha⟩ := hr h' hi hy
    exact ⟨by rw [ht], ha⟩
  case take hp _ hr =>
    cases h' with
    | take _ h' =>
      simp only [List.filterMap_cons, Script.Act.input, List.cons_prefix_cons, Prod.mk.injEq, true_and] at hi
      obtain ⟨rfl, hi⟩ := hi
      have ⟨ht, ha⟩ := hr h' hi hy
      exact ⟨by rw [ht], ha⟩
    | timeout hq => simp [hp] at hq
  case timeout hp _ hr =>
    cases h' with
    | take hq => simp [hp] at hq
    | timeout _ h' =>
      have ⟨ht, ha⟩ := hr h' hi hy
      exact ⟨by rw [ht], ha⟩

theorem eq_recv {x y : Prog E α} (h : Performs μ me x (.get (.tcp src me) m :: t) y) :
    ∃ len k, x = .recv src len k := by
  cases h
  exact ⟨_, _, rfl⟩

end Performs
end Process
