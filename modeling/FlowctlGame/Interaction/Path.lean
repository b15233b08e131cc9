import Mathlib.Data.List.Basic

namespace FlowctlGame.Interaction

variable {η σ : Type}

/-- Finite runs of a labelled transition relation. -/
inductive Path (R : σ → η → σ → Prop) : σ → List η → σ → Prop
  | nil (s : σ) : Path R s [] s
  | cons {s t u : σ} {e : η} {tr : List η} : R s e t → Path R t tr u → Path R s (e :: tr) u

namespace Path

variable {R R' : σ → η → σ → Prop} {s t u : σ} {e : η} {tr tr' : List η}

theorem one (h : R s e t) : Path R s [e] t := .cons h (.nil t)

theorem append (h : Path R s tr t) (h' : Path R t tr' u) : Path R s (tr ++ tr') u := by
  induction h with
  | nil => exact h'
  | cons hs h ih => exact .cons hs (ih h')

theorem split (h : Path R s (tr ++ tr') u) : ∃ t, Path R s tr t ∧ Path R t tr' u := by
  induction tr generalizing s with
  | nil => exact ⟨s, .nil s, h⟩
  | cons e tr ih =>
    cases h with
    | cons hs h =>
      obtain ⟨t, ht, hu⟩ := ih h
      exact ⟨t, .cons hs ht, hu⟩

theorem snoc (h : Path R s tr t) (hs : R t e u) : Path R s (tr ++ [e]) u := h.append (.one hs)

/-- What every transition preserves is preserved by every run. -/
theorem preserves {I : σ → Prop} (hI : ∀ s e t, R s e t → I s → I t)
    (h : Path R s tr t) (hs : I s) : I t := by
  induction h with
  | nil => exact hs
  | cons hst h ih => exact ih (hI _ _ _ hst hs)

theorem step_of_mem (h : Path R s tr t) (he : e ∈ tr) : ∃ s' t', R s' e t' := by
  induction h with
  | nil => cases he
  | cons hst _ ih =>
    rcases List.mem_cons.mp he with rfl | he
    · exact ⟨_, _, hst⟩
    · exact ih he

/-- An invariant that may refer to the run so far. -/
theorem invariant {I : List η → σ → Prop} (h₀ : I [] s)
    (hI : ∀ tr t e u, Path R s tr t → I tr t → R t e u → I (tr ++ [e]) u)
    (h : Path R s tr t) : I tr t := by
  suffices key : ∀ tr₀ t₀, Path R s tr₀ t₀ → I tr₀ t₀ → ∀ tr t, Path R t₀ tr t → I (tr₀ ++ tr) t by
    exact key [] s (.nil s) h₀ tr t h
  clear h
  intro tr₀ t₀ hp hi tr t h
  induction h generalizing tr₀ with
  | nil t => simpa using hi
  | @cons a b c e tr hs h ih =>
    have hb := ih (tr₀ ++ [e]) (hp.snoc hs) (hI tr₀ a e b hp hi hs)
    simpa only [List.append_assoc, List.singleton_append] using hb

end Path

end FlowctlGame.Interaction
