import FlowctlGame.Interaction.Halting

namespace FlowctlGame.Interaction.Program

variable {μ η σ ε α β γ : Type} {ω : Stream μ}

/-- A run with the answers of `ω` comes to the part `p` of a program, in the state `s'` and at
the position `k'`. -/
inductive Enters (p : Program μ η σ ε γ) (ω : Stream μ) (s' : σ) (k' : ℕ) :
    {α : Type} → Program μ η σ ε α → σ → ℕ → Prop
  | here : Enters p ω s' k' p s' k'
  | first {α β : Type} {m : Program μ η σ ε α} {f : α → Program μ η σ ε β} {s : σ} {k : ℕ} :
      Enters p ω s' k' m s k → Enters p ω s' k' (m >>= f) s k
  | next {α β : Type} {m : Program μ η σ ε α} {f : α → Program μ η σ ε β} {s t : σ} {k j : ℕ}
      {a : α} : m.Halts ω s k (fun o s₁ k₁ ↦ o = .returned a ∧ s₁ = t ∧ k₁ = j) →
      Enters p ω s' k' (f a) t j → Enters p ω s' k' (m >>= f) s k
  | pass {α β : Type} {body : β → Program μ η σ ε (β ⊕ α)} {b : β} {s : σ} {k : ℕ} :
      Enters p ω s' k' (body b) s k → Enters p ω s' k' (Program.loop body b) s k
  | again {α β : Type} {body : β → Program μ η σ ε (β ⊕ α)} {b b' : β} {s t : σ} {k j : ℕ} :
      (body b).Halts ω s k (fun o s₁ k₁ ↦ o = .returned (.inl b') ∧ s₁ = t ∧ k₁ = j) →
      Enters p ω s' k' (Program.loop body b') t j → Enters p ω s' k' (Program.loop body b) s k
  | scope {α : Type} {m : Program μ η σ ε α} {leave : σ → σ} {unwinds : ε → Bool} {s : σ}
      {k : ℕ} : Enters p ω s' k' m s k → Enters p ω s' k' (m.scopeExit leave unwinds) s k

section Diverges

variable {p : Program μ η σ ε γ} {m : Program μ η σ ε α} {s s' t : σ} {k k' j : ℕ}

theorem Diverges.pass {body : β → Program μ η σ ε (β ⊕ α)} {b : β}
    (h : (body b).Diverges ω s k) : (Program.loop body b).Diverges ω s k := by
  refine Diverges.loop (fun b' t j ↦ b' = b ∧ t = s ∧ j = k) ⟨rfl, rfl, rfl⟩ ?_
  intro b' t j hI
  obtain ⟨rfl, rfl, rfl⟩ := hI
  exact .inl h

theorem Diverges.again {body : β → Program μ η σ ε (β ⊕ α)} {b b' : β}
    (hpass : (body b).Halts ω s k (fun o s₁ k₁ ↦ o = .returned (.inl b') ∧ s₁ = t ∧ k₁ = j))
    (h : (Program.loop body b').Diverges ω t j) : (Program.loop body b).Diverges ω s k := by
  obtain ⟨n, hn, ho, rfl, rfl⟩ := hpass
  intro n'
  change (passes body _ b s (ω.slice k n')).outcome = .pending
  rw [Stream.slice_length, passes]
  by_cases hp : ((body b).run s (ω.slice k n')).outcome = .pending
  · simp [Execution.andThen, hp]
  · have heq : (body b).run s (ω.slice k n') = (body b).run s (ω.slice k n) :=
      run_slice_settled hp hn
    have hwithin := (body b).within s (ω.slice k n')
    rw [Stream.slice_length, heq] at hwithin
    rw [heq, Execution.andThen_returned ho]
    simp only [Stream.slice_drop ω k hwithin]
    by_contra hrest
    -- more answers and more passes than `n'` change nothing once the rest has come to an end
    have hmore := passes_slice_mono (Nat.sub_le n' _) (Nat.le_succ n') hrest
    have hpending := h n'
    change (passes body _ b' _ (ω.slice _ n')).outcome = .pending at hpending
    rw [Stream.slice_length, hmore] at hpending
    exact hrest hpending

theorem Diverges.scopeExit {leave : σ → σ} {unwinds : ε → Bool} (h : m.Diverges ω s k) :
    (m.scopeExit leave unwinds).Diverges ω s k := by
  intro n
  simp [Program.scopeExit, h n]

theorem Enters.diverges (h : Enters p ω s' k' m s k) (hp : p.Diverges ω s' k') :
    m.Diverges ω s k := by
  induction h with
  | here => exact hp
  | first _ ih => exact ih.bind _
  | next hm _ ih =>
    refine Halts.bind_diverges (hm.mono (fun o s₁ k₁ _ hq ↦ ?_))
    obtain ⟨rfl, rfl, rfl⟩ := hq
    exact ⟨_, rfl, ih⟩
  | pass _ ih => exact ih.pass
  | again hpass _ ih => exact Diverges.again hpass ih
  | scope _ ih => exact ih.scopeExit

end Diverges

/-- `m` finishes, provided that its run comes to the part `p` only where `G` holds. -/
def FinishesIf (m : Program μ η σ ε α) (p : Program μ η σ ε γ) (G : σ → ℕ → Prop)
    (ω : Stream μ) (s : σ) (k : ℕ) (R : α → σ → ℕ → Prop) : Prop :=
  (∀ s' k', Enters p ω s' k' m s k → G s' k') → m.Finishes ω s k R

section FinishesIf

variable {p : Program μ η σ ε γ} {G : σ → ℕ → Prop} {m : Program μ η σ ε α} {s : σ} {k : ℕ}
  {R : α → σ → ℕ → Prop}

theorem Finishes.always (h : m.Finishes ω s k R) : m.FinishesIf p G ω s k R := fun _ ↦ h

theorem finishesIf_part {R : γ → σ → ℕ → Prop} (h : G s k → p.Finishes ω s k R) :
    p.FinishesIf p G ω s k R :=
  fun hG ↦ h (hG s k .here)

theorem FinishesIf.mono {T : α → σ → ℕ → Prop} (h : m.FinishesIf p G ω s k R)
    (hT : ∀ a s' k', k ≤ k' → R a s' k' → T a s' k') : m.FinishesIf p G ω s k T :=
  fun hG ↦ (h hG).mono hT

theorem FinishesIf.bind {f : α → Program μ η σ ε β} {R : β → σ → ℕ → Prop}
    (h : m.FinishesIf p G ω s k (fun a s' k' ↦ (f a).FinishesIf p G ω s' k' R)) :
    (m >>= f).FinishesIf p G ω s k R := by
  intro hG
  obtain ⟨n, hn, hfin⟩ := h (fun s' k' he ↦ hG s' k' he.first)
  refine Halts.bind ⟨n, hn, ?_⟩
  cases ho : (m.run s (ω.slice k n)).outcome with
  | pending => exact absurd ho hn
  | raised e => exact trivial
  | returned a =>
    rw [ho] at hfin
    exact hfin (fun s' k' he ↦ hG s' k' (.next ⟨n, hn, ho, rfl, rfl⟩ he))

theorem finishesIf_get_bind {f : σ → Program μ η σ ε β} {R : β → σ → ℕ → Prop}
    (h : (f s).FinishesIf p G ω s k R) : (get >>= f).FinishesIf p G ω s k R :=
  FinishesIf.bind (Finishes.always (halts_get h))

theorem FinishesIf.scopeExit {leave : σ → σ} {unwinds : ε → Bool}
    (h : m.FinishesIf p G ω s k (fun a s' k' ↦ R a (leave s') k')) :
    (m.scopeExit leave unwinds).FinishesIf p G ω s k R :=
  fun hG ↦ Finishes.scopeExit (h (fun s' k' he ↦ hG s' k' he.scope))

theorem FinishesIf.loop_rank {body : β → Program μ η σ ε (β ⊕ α)} (rank : β → σ → ℕ → ℕ) {b : β}
    (I : β → σ → ℕ → Prop) (h₀ : I b s k)
    (hbody : ∀ b s k, I b s k → (body b).FinishesIf p G ω s k (fun c s' k' ↦
      Sum.elim (fun b' ↦ I b' s' k' ∧ rank b' s' k' < rank b s k) (fun a ↦ R a s' k') c)) :
    (Program.loop body b).FinishesIf p G ω s k R := by
  intro hG
  refine Finishes.loop_rank rank (fun b s k ↦ I b s k ∧
    ∀ s' k', Enters p ω s' k' (Program.loop body b) s k → G s' k') ⟨h₀, hG⟩ ?_
  intro b s k hI
  obtain ⟨hb, hG⟩ := hI
  obtain ⟨n, hn, hfin⟩ := hbody b s k hb (fun s' k' he ↦ hG s' k' he.pass)
  refine ⟨n, hn, ?_⟩
  cases ho : ((body b).run s (ω.slice k n)).outcome with
  | pending => exact absurd ho hn
  | raised e => exact trivial
  | returned c =>
    rw [ho] at hfin
    cases c with
    | inl b' =>
      obtain ⟨hI, hrank⟩ := hfin
      exact ⟨⟨hI, fun s' k' he ↦ hG s' k' (.again ⟨n, hn, ho, rfl, rfl⟩ he)⟩, hrank⟩
    | inr a => exact hfin

end FinishesIf

end FlowctlGame.Interaction.Program
