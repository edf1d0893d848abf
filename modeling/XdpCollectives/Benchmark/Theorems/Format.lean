import XdpCollectives.Benchmark.Results
import Mathlib.Tactic.IntervalCases

open Csv

-- What the texts of numbers and the names of columns are made of.
namespace Benchmark

variable {t d f : Text} {c : Char} {n : Nat} {z : Int}

structure Digits (t : Text) : Prop where
  digit    : ∀ c ∈ t, c.isDigit
  nonempty : t ≠ []

theorem toDigits_digits (n : Nat) : Digits (Nat.toDigits 10 n) where
  digit _ h := Nat.isDigit_of_mem_toDigits (by decide) (by decide) h
  nonempty  := Nat.toDigits_ne_nil

theorem toDigits_injective {m n : Nat} (h : Nat.toDigits 10 m = Nat.toDigits 10 n) : m = n := by
  have hm := Nat.ofDigitChars_toDigits (b := 10) (n := m) (by decide) (by decide)
  rw [h, Nat.ofDigitChars_toDigits (by decide) (by decide)] at hm
  exact hm.symm

theorem ne_of_isDigit {a : Char} (h : c.isDigit) (ha : a.isDigit = false) : c ≠ a := by
  rintro rfl
  simp [ha] at h

def digits : List Char :=
  ['0', '1', '2', '3', '4', '5', '6', '7', '8', '9']

theorem mem_digits (h : c.isDigit) : c ∈ digits := by
  have ⟨hl, hu⟩ := Char.isDigit_iff_toNat.mp h
  have hl : 48 ≤ c.toNat := hl
  have hu : c.toNat ≤ 57 := hu
  rw [← Char.ofNat_toNat c]
  generalize c.toNat = n at hl hu
  interval_cases n <;> decide

-- The characters of the names of columns and of the texts of numbers.
def alphabet : List Char :=
  digits ++ ['-', '.', 's', '=', '_', 'n', 'p', 'X', 'D', 'P', 'T', 'C', 'a', 'i', 'v', 'e', 'f']

theorem plain_of_alphabet (h : ∀ c ∈ t, c ∈ alphabet) : Plain t := by
  have ha : ∀ c ∈ alphabet, isSpace c = false ∧ special c = false :=
    List.forall_iff_forall_mem.mp (by decide)
  exact fun c hc => ha c (h c hc)

theorem Digits.alphabet (h : Digits t) : ∀ c ∈ t, c ∈ alphabet :=
  fun c hc => List.mem_append_left _ (mem_digits (h.digit c hc))

theorem sign_alphabet (negative : Bool) : ∀ c ∈ sign negative, c ∈ alphabet :=
  List.forall_iff_forall_mem.mp (by cases negative <;> decide)

-- str(n) can be told from what follows by the first underscore.
theorem str_alphabet (z : Int) : ∀ c ∈ str z, c ∈ alphabet ∧ c ≠ '_' := by
  have hd (n : Nat) : ∀ c ∈ Nat.toDigits 10 n, c ∈ alphabet ∧ c ≠ '_' := fun c hc =>
    ⟨(toDigits_digits n).alphabet c hc, ne_of_isDigit ((toDigits_digits n).digit c hc) (by decide)⟩
  cases z with
  | ofNat n   => exact hd n
  | negSucc n =>
    intro c hc
    rcases List.mem_cons.mp hc with rfl | hc
    · decide
    · exact hd (n + 1) c hc

theorem str_injective {y z : Int} (h : str y = str z) : y = z := by
  have hne (m n : Nat) : Nat.toDigits 10 m ≠ '-' :: Nat.toDigits 10 n := by
    intro he
    have hd := (toDigits_digits m).digit '-' (by simp [he])
    contradiction
  cases y with
  | ofNat m =>
    cases z with
    | ofNat n   => exact congrArg _ (toDigits_injective h)
    | negSucc n => exact (hne _ _ h).elim
  | negSucc m =>
    cases z with
    | ofNat n   => exact (hne _ _ h.symm).elim
    | negSucc n =>
      have hs := toDigits_injective (List.cons.inj h).right
      rw [Nat.succ.inj hs]

theorem header_alphabet (c : Combination) : ∀ a ∈ header c, a ∈ alphabet := by
  have hp : ∀ a ∈ c.prog.text, a ∈ alphabet := List.forall_iff_forall_mem.mp (by cases c.prog <;> decide)
  have hs : ∀ a ∈ ['s', '='], a ∈ alphabet := List.forall_iff_forall_mem.mp (by decide)
  have hn : ∀ a ∈ ['_', 'n', 'p', '='], a ∈ alphabet := List.forall_iff_forall_mem.mp (by decide)
  have hq : ∀ a ∈ ['_', 'p', '='], a ∈ alphabet := List.forall_iff_forall_mem.mp (by decide)
  intro a ha
  simp only [header, List.mem_append] at ha
  rcases ha with ((((ha | ha) | ha) | ha) | ha) | ha
  · exact hs a ha
  · exact (str_alphabet _ a ha).left
  · exact hn a ha
  · exact (str_alphabet _ a ha).left
  · exact hq a ha
  · exact hp a ha

theorem header_plain (c : Combination) : Plain (header c) :=
  plain_of_alphabet (header_alphabet c)

theorem header_ne_nil (c : Combination) : header c ≠ [] := by
  simp [header]

theorem header_injective {b c : Combination} (h : header b = header c) : b = c := by
  have hu (z : Int) : '_' ∉ str z := fun hm => (str_alphabet z _ hm).right rfl
  have hp {p q : Prog} (h : p.text = q.text) : p = q := by
    cases p <;> cases q <;> first | rfl | contradiction
  simp only [header, List.append_assoc, List.cons_append, List.nil_append, List.cons.injEq, true_and] at h
  have ⟨hs, hr⟩ := append_cons_inj (hu _) (hu _) h
  simp only [List.cons.injEq, true_and] at hr
  have ⟨hn, hr⟩ := append_cons_inj (hu _) (hu _) hr
  simp only [List.cons.injEq, true_and] at hr
  cases b
  cases c
  rw [Combination.mk.injEq]
  exact ⟨str_injective hs, str_injective hn, hp hr⟩

-- What is left of a formatted number without the zeros at its end.
inductive Numeral : Text → Prop
  | nan : Numeral ['n', 'a', 'n']
  | inf (negative : Bool) : Numeral (sign negative ++ ['i', 'n', 'f'])
  | whole (negative : Bool) {d : Text} (hd : Digits d) : Numeral (sign negative ++ d)
  | point (negative : Bool) {d f : Text} (hd : Digits d) (hf : Digits f) : Numeral (sign negative ++ d ++ '.' :: f)

theorem rstrip_append (c : Char) (t u : Text) :
    rstrip c (t ++ u) = if rstrip c u = [] then rstrip c t else t ++ rstrip c u := by
  simp only [rstrip, List.rdropWhile, List.reverse_append, List.dropWhile_append, List.isEmpty_iff,
    List.reverse_eq_nil_iff]
  split
  · rfl
  · simp

theorem rstrip_of_not_mem (h : c ∉ t) : rstrip c t = t := by
  rw [rstrip, List.rdropWhile_eq_self_iff]
  intro hl he
  rw [decide_eq_true_eq] at he
  exact h (he ▸ List.getLast_mem hl)

theorem Digits.rstrip_point (h : Digits d) : rstrip '.' d = d :=
  rstrip_of_not_mem fun hm => absurd (h.digit '.' hm) (by decide)

theorem rstrip_formatted (negative : Bool) (hd : Digits d) (hf : ∀ c ∈ f, c.isDigit) :
    Numeral (rstrip '.' (rstrip '0' (sign negative ++ d ++ '.' :: f))) := by
  have hs : '.' :: f = ['.'] ++ f := rfl
  have hz : rstrip '0' ['.'] = ['.'] := rfl
  have hp : rstrip '.' ['.'] = [] := rfl
  rw [rstrip_append, hs, rstrip_append, hz]
  by_cases h0 : rstrip '0' f = []
  case pos =>
    rw [if_pos h0, if_neg (by simp), rstrip_append, if_pos hp, rstrip_append, hd.rstrip_point, if_neg hd.nonempty]
    exact .whole negative hd
  case neg =>
    have hr : Digits (rstrip '0' f) := ⟨fun c hc => hf c ((List.rdropWhile_prefix _ _).subset hc), h0⟩
    rw [if_neg h0, if_neg (by simp), rstrip_append, rstrip_append, hr.rstrip_point, if_neg h0, if_neg (by simp)]
    exact .point negative hd hr

theorem Numeral.ne_nil (h : Numeral t) : t ≠ [] := by
  cases h with
  | nan         => simp
  | inf         => simp
  | whole _ hd  => simp [hd.nonempty]
  | point       => simp

theorem formatCsvValue_numeral (x : Double) : Numeral (formatCsvValue (.float x)) := by
  have hn : Numeral (rstrip '.' (rstrip '0' (formatFixed x))) := by
    cases x with
    | nan          => exact .nan
    | inf negative =>
      cases negative
      case false => exact .inf false
      case true  => exact .inf true
    | finite negative m e =>
      refine rstrip_formatted negative (toDigits_digits _) fun c hc => ?_
      rcases List.mem_append.mp hc with hc | hc
      · rw [(List.mem_replicate.mp hc).right]
        decide
      · exact (toDigits_digits _).digit c hc
  rw [formatCsvValue, if_neg hn.ne_nil]
  exact hn

theorem Numeral.alphabet (h : Numeral t) : ∀ c ∈ t, c ∈ alphabet := by
  cases h with
  | nan                      => exact List.forall_iff_forall_mem.mp (by decide)
  | inf negative             => exact List.forall_iff_forall_mem.mp (by cases negative <;> decide)
  | whole negative hd        =>
    intro c hc
    rcases List.mem_append.mp hc with hc | hc
    · exact sign_alphabet _ c hc
    · exact hd.alphabet c hc
  | point negative hd hf     =>
    intro c hc
    simp only [List.append_assoc, List.mem_append, List.mem_cons] at hc
    rcases hc with hc | hc | rfl | hc
    · exact sign_alphabet _ c hc
    · exact hd.alphabet c hc
    · decide
    · exact hf.alphabet c hc

theorem Numeral.plain (h : Numeral t) : Plain t :=
  plain_of_alphabet h.alphabet

theorem Digits.digitPart (h : Digits t) : digitPart t := by
  have ⟨hd, hne⟩ := h
  clear h
  fun_induction Benchmark.digitPart t
  case case1 => exact absurd rfl hne
  case case2 c => exact hd c (by simp)
  case case3 c t hi =>
    have hu := hd '_' (by simp)
    contradiction
  case case4 c t h1 h2 hi =>
    rw [Bool.and_eq_true]
    refine ⟨hd c (by simp), hi (fun a ha => hd a (List.mem_cons_of_mem _ ha)) ?_⟩
    rintro rfl
    exact h1 rfl

-- The steps of `float` up to the test of the digits do nothing to digits and points.
theorem isFloat_of_pointFloat (negative : Bool) (hn : ∀ c ∈ t, c.isDigit ∨ c = '.') (hd : ∃ c u, t = c :: u ∧ c.isDigit)
    (hp : pointFloat t) : isFloat (sign negative ++ t) := by
  have ha : ∀ c ∈ digits ++ ['.', '-'], isSpace c = false ∧ c.toLower = c ∧ c ≠ 'e' :=
    List.forall_iff_forall_mem.mp (by decide)
  have hm : ∀ c ∈ sign negative ++ t, c ∈ digits ++ ['.', '-'] := by
    intro c hc
    rcases List.mem_append.mp hc with hc | hc
    · cases negative
      case false => exact absurd hc List.not_mem_nil
      case true  =>
        obtain rfl := List.mem_singleton.mp hc
        decide
    · rcases hn c hc with hc | rfl
      · exact List.mem_append_left _ (mem_digits hc)
      · decide
  have hstrip : strip (sign negative ++ t) = sign negative ++ t := strip_eq_self fun c hc => (ha c (hm c hc)).left
  have hlower : (sign negative ++ t).map Char.toLower = sign negative ++ t := by
    conv_rhs => rw [← List.map_id (sign negative ++ t)]
    exact List.map_congr_left fun c hc => (ha c (hm c hc)).right.left
  have hsign : unsigned (sign negative ++ t) = t := by
    obtain ⟨c, u, rfl, hc⟩ := hd
    cases negative
    case true  => rfl
    case false =>
      have hp : c ≠ '+' := ne_of_isDigit hc (by decide)
      have hm : c ≠ '-' := ne_of_isDigit hc (by decide)
      exact unsigned.eq_3 _ (fun _ h => hp (List.cons.inj h).left) (fun _ h => hm (List.cons.inj h).left)
  have he : t.dropWhile (· ≠ 'e') = [] := by
    rw [List.dropWhile_eq_nil_iff]
    intro c hc
    simpa using (ha c (hm c (List.mem_append_right _ hc))).right.right
  simp only [isFloat, hstrip, hlower, hsign, he, hp, Bool.or_true]

theorem takeWhile_digits (h : Digits d) (u : Text) : (d ++ '.' :: u).takeWhile (· ≠ '.') = d ∧
    (d ++ '.' :: u).dropWhile (· ≠ '.') = '.' :: u := by
  have hd : ∀ c ∈ d, (decide (c ≠ '.')) = true := fun c hc => by
    simpa using ne_of_isDigit (h.digit c hc) (by decide)
  rw [List.takeWhile_append_of_pos hd, List.dropWhile_append_of_pos hd]
  simp

theorem Digits.head (h : Digits d) (u : Text) : ∃ c v, d ++ u = c :: v ∧ c.isDigit := by
  obtain ⟨c, v, rfl⟩ := List.exists_cons_of_ne_nil h.nonempty
  exact ⟨c, v ++ u, rfl, h.digit c (by simp)⟩

theorem Numeral.isFloat (h : Numeral t) : isFloat t := by
  cases h with
  | nan          => decide
  | inf negative => cases negative <;> decide
  | whole negative hd =>
    have hh := hd.head []
    rw [List.append_nil] at hh
    refine isFloat_of_pointFloat negative (fun c hc => .inl (hd.digit c hc)) hh ?_
    have hw : ∀ c ∈ _, decide (c ≠ '.') = true := fun c hc => by simpa using ne_of_isDigit (hd.digit c hc) (by decide)
    simp only [pointFloat, List.takeWhile_eq_self_iff.mpr hw, List.dropWhile_eq_nil_iff.mpr hw, hd.digitPart]
  | @point negative d f hd hf =>
    rw [List.append_assoc]
    refine isFloat_of_pointFloat negative (fun c hc => ?_) (hd.head _) ?_
    · simp only [List.mem_append, List.mem_cons] at hc
      rcases hc with hc | rfl | hc
      · exact .inl (hd.digit c hc)
      · exact .inr rfl
      · exact .inl (hf.digit c hc)
    · have ⟨ht, hr⟩ := takeWhile_digits hd f
      simp only [pointFloat, ht, hr, hd.digitPart, hf.digitPart]
      simp [hd.nonempty]

end Benchmark
