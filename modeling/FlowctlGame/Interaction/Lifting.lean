import FlowctlGame.Interaction.Embedding
import FlowctlGame.Interaction.Halting
import FlowctlGame.Interaction.Settling

namespace FlowctlGame.Interaction

variable {μ μ' η η' σ τ ε ε' α β : Type}

namespace Stream

def map (f : μ' → μ) (ω : Stream μ') : Stream μ := ⟨fun k ↦ f (ω.symbol k), ω.length⟩

theorem slice_map (f : μ' → μ) (ω : Stream μ') (k n : ℕ) :
    (ω.map f).slice k n = (ω.slice k n).map f := by
  simp only [slice, map, List.map_ofFn]
  rfl

end Stream

namespace Program

variable {m : Program μ η σ ε α} {ω : Stream μ} {s : σ} {k n : ℕ}

/-- A program that ends with some answers ends with those and all that follow. -/
theorem Settles.finishes {Q : Outcome ε α → σ → List μ → Prop} {R : α → σ → ℕ → Prop}
    (h : m.Settles s (ω.slice k n) Q) (hR : ∀ a s' tr, m.Executes s tr (.returned a) s' →
      R a s' (k + tr.length)) : m.Finishes ω s k R := by
  refine ⟨n, h.1, ?_⟩
  cases ho : (m.run s (ω.slice k n)).outcome with
  | returned a => exact hR _ _ _ (ho ▸ executes_run m s (ω.slice k n))
  | raised e => exact trivial
  | pending => exact absurd ho h.1

theorem Finishes.translate {ω : Stream μ'} {answer : μ' → μ} {event : η → η'} {error : ε → ε'}
    {R : α → σ → ℕ → Prop} (h : m.Finishes (ω.map answer) s k R) :
    (m.translate answer event error).Finishes ω s k R := by
  obtain ⟨n, hn, hR⟩ := h
  rw [Stream.slice_map] at hn hR
  refine ⟨n, fun hp ↦ hn (Outcome.mapError_pending.mp hp), ?_⟩
  simp only [Program.translate, List.length_map]
  cases ho : (m.run s ((ω.slice k n).map answer)).outcome with
  | returned a =>
    rw [ho] at hR
    exact hR
  | raised e => exact trivial
  | pending => exact absurd ho hn

theorem Finishes.confined {t : τ} {m : Program μ η τ ε α} {R : α → σ → ℕ → Prop}
    (h : m.Finishes ω t k (fun a _ k' ↦ R a s k')) : (m.confined t).Finishes ω s k R := by
  obtain ⟨n, hn, hR⟩ := h
  refine ⟨n, hn, ?_⟩
  simp only [Program.confined]
  cases ho : (m.run t (ω.slice k n)).outcome with
  | returned a =>
    rw [ho] at hR
    exact hR
  | raised e => exact trivial
  | pending => exact absurd ho hn

/-- Who catches the errors of a program returns when it ends. -/
theorem Finishes.attempt {R : α → σ → ℕ → Prop} {T : Except ε α → σ → ℕ → Prop}
    (h : m.Finishes ω s k R) (hT : ∀ x s' k', T x s' k') :
    (m.attempt : Program μ η σ ε' (Except ε α)).Finishes ω s k T := by
  obtain ⟨n, hn, -⟩ := h
  refine ⟨n, fun hp ↦ hn (Outcome.attempted_pending.mp hp), ?_⟩
  simp only [Program.attempt]
  cases ho : (m.run s (ω.slice k n)).outcome with
  | returned a => exact hT _ _ _
  | raised e => exact hT _ _ _
  | pending => exact absurd ho hn

theorem Finishes.forM {body : β → Program μ η σ ε Unit}
    (h : ∀ b s k, (body b).Finishes ω s k (fun _ _ _ ↦ True)) (bs : List β) :
    (bs.forM body).Finishes ω s k (fun _ _ _ ↦ True) := by
  induction bs generalizing s k with
  | nil => exact finishes_pure trivial
  | cons b bs ih =>
    have hcons : (b :: bs).forM body = (body b >>= fun _ ↦ bs.forM body) := rfl
    rw [hcons]
    exact .bind ((h b s k).mono (fun _ _ _ _ _ ↦ ih))

end Program

end FlowctlGame.Interaction
