-- Machines that answer one call after the other.
namespace Machine

variable {σ τ ι ρ : Type}

def run (step : σ → ι → ρ × σ) : σ → List ι → List ρ × σ
  | s, []      => ([], s)
  | s, i :: is =>
    let (r, s') := step s i
    let (rs, s'') := run step s' is
    (r :: rs, s'')

-- In related states, both machines give the same answer and get into related states.
def Simulates (R : σ → τ → Prop) (step : σ → ι → ρ × σ) (step' : τ → ι → ρ × τ) : Prop :=
  ∀ s t i, R s t → (step s i).1 = (step' t i).1 ∧ R (step s i).2 (step' t i).2

variable {R : σ → τ → Prop} {step : σ → ι → ρ × σ} {step' : τ → ι → ρ × τ} {s : σ} {t : τ}

theorem Simulates.run (h : Simulates R step step') (hr : R s t) (is : List ι) :
    (run step s is).1 = (run step' t is).1 ∧ R (run step s is).2 (run step' t is).2 := by
  induction is generalizing s t with
  | nil => exact ⟨rfl, hr⟩
  | cons i is hi =>
    have ⟨he, hr'⟩ := h s t i hr
    have ⟨hes, hrs⟩ := hi hr'
    exact ⟨List.cons_eq_cons.mpr ⟨he, hes⟩, hrs⟩

end Machine
