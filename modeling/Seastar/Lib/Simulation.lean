import Seastar.Lib.Run

/-!
One system that may fail shows another: what both return is related, they fail
with the same error, and the first may also stop with an error of its own, such as
a check of its resources that the other does not have.
-/

namespace Lib

variable {σ τ ι ε α β : Type} {R : σ → τ → Prop} {Q : α → β → Prop} {stop : ε}
  {x : Except ε σ} {y : Except ε τ}

/-- `x` shows `y`: it returns what is related to it, fails as it does, or stops. -/
inductive Simulates (R : σ → τ → Prop) (stop : ε) : Except ε σ → Except ε τ → Prop
  | stops (y : Except ε τ) : Simulates R stop (.error stop) y
  | fails (e : ε) : Simulates R stop (.error e) (.error e)
  | returns {s : σ} {t : τ} (h : R s t) : Simulates R stop (.ok s) (.ok t)

namespace Simulates

theorem bind {k : σ → Except ε α} {k' : τ → Except ε β} (h : Simulates R stop x y)
    (hk : ∀ s t, x = .ok s → R s t → Simulates Q stop (k s) (k' t)) :
    Simulates Q stop (x >>= k) (y >>= k') := by
  cases h with
  | stops y => exact .stops _
  | fails e => exact .fails e
  | returns h => exact hk _ _ rfl h

theorem mono {R' : σ → τ → Prop} (h : Simulates R stop x y) (hR : ∀ s t, R s t → R' s t) :
    Simulates R' stop x y := by
  cases h with
  | stops y => exact .stops _
  | fails e => exact .fails e
  | returns h => exact .returns (hR _ _ h)

/-- The simulation rule: what one step shows, the run shows. -/
theorem run {step : σ → ι → Except ε σ} {step' : τ → ι → Except ε τ} {P : σ → ι → Prop}
    (hstep : ∀ s t i, R s t → P s i → Simulates R stop (step s i) (step' t i))
    {s : σ} {t : τ} {is : List ι} (h : R s t) (hP : Run.Along step P s is) :
    Simulates R stop (Run.run step s is) (Run.run step' t is) := by
  induction is generalizing s t with
  | nil => exact .returns h
  | cons i is ih =>
    rw [Run.run_cons, Run.run_cons]
    apply (hstep s t i h hP.1).bind
    intro s' t' hs' h'
    exact ih h' (hP.2 s' hs')

end Simulates

end Lib
