import XdpCollectives.Process.Basic

-- Programs that read what has come over one connection. A call of `recv` returns as many of the bytes as there are by
-- then, and one of them at least.
namespace Process.Prog

variable {src : Nat} {cut : Nat → Nat} {j : Nat} {s : Bytes}

-- Where the program is when the stream ends or it needs something else, the number of calls so far, and what it has
-- not read. The `j`-th call finds `cut j` bytes.
def read (src : Nat) (cut : Nat → Nat) : Prog E α → (j : Nat) → (s : Bytes) → Prog E α × Nat × Bytes
  | recv src' len k, j, s =>
    if src' = src ∧ s ≠ [] then
      read src cut (k (s.take (min len (cut j)))) (j + 1) (s.drop (min len (cut j)))
    else (recv src' len k, j, s)
  | x, j, s => (x, j, s)

theorem read_recv (len : Nat) (k : Bytes → Prog E α) (h : s ≠ []) :
    (recv src len k).read src cut j s =
      (k (s.take (min len (cut j)))).read src cut (j + 1) (s.drop (min len (cut j))) :=
  if_pos ⟨rfl, h⟩

theorem read_bind (x : Prog E α) (f : α → Prog E β) (j : Nat) (s : Bytes) : (x.bind f).read src cut j s =
    ((x.read src cut j s).1.bind f).read src cut (x.read src cut j s).2.1 (x.read src cut j s).2.2 := by
  induction x generalizing j s
  case recv src' len k hi =>
    by_cases h : src' = src ∧ s ≠ []
    case pos =>
      obtain ⟨rfl, h⟩ := h
      rw [bind, read_recv _ _ h, read_recv _ _ h]
      exact hi ..
    case neg => simp only [read, h, if_false]
  all_goals rfl

theorem read_bind_ret {x : Prog E α} (h : x.read src cut j s = (ret a, j', s')) (f : α → Prog E β) :
    (x >>= f).read src cut j s = (f a).read src cut j' s' := by
  rw [bind_eq, read_bind, h]
  rfl

end Process.Prog
