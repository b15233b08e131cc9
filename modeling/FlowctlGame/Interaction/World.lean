import FlowctlGame.Interaction.History
import FlowctlGame.Interaction.Path

namespace FlowctlGame.Interaction

variable {η ρ ω : Type}

/-- The calls among the steps of a world that also moves by itself. -/
def calls (steps : List (η ⊕ ρ)) : List η := steps.filterMap Sum.getLeft?

/-- The moves that the world made by itself. -/
def moves (steps : List (η ⊕ ρ)) : List ρ := steps.filterMap Sum.getRight?

section Projections

variable (steps : List (η ⊕ ρ)) (e : η) (m : ρ)

@[simp]
theorem calls_cons_call : calls (.inl e :: steps) = e :: calls steps := rfl

@[simp]
theorem calls_cons_move : calls (.inr m :: steps) = calls steps := rfl

@[simp]
theorem moves_cons_call : moves (.inl e :: steps) = moves steps := rfl

@[simp]
theorem moves_cons_move : moves (.inr m :: steps) = m :: moves steps := rfl

@[simp]
theorem calls_call : calls (steps ++ [.inl e]) = calls steps ++ [e] := by
  simp [calls]

@[simp]
theorem calls_move : calls (steps ++ [.inr m]) = calls steps := by
  simp [calls]

@[simp]
theorem moves_call : moves (steps ++ [.inl e]) = moves steps := by
  simp [moves]

@[simp]
theorem moves_move : moves (steps ++ [.inr m]) = moves steps ++ [m] := by
  simp [moves]

end Projections

theorem Path.split_calls {R : ω → η ⊕ ρ → ω → Prop} {w w' : ω} {steps : List (η ⊕ ρ)}
    {tr tr' : List η} (h : Path R w steps w') (htr : calls steps = tr ++ tr') :
    ∃ before after v, steps = before ++ after ∧ calls before = tr ∧ calls after = tr' ∧
      Path R w before v ∧ Path R v after w' := by
  obtain ⟨before, after, rfl, hbefore, hafter⟩ := List.filterMap_eq_append_iff.mp htr
  obtain ⟨v, hv, hv'⟩ := h.split
  exact ⟨before, after, v, rfl, hbefore, hafter, hv, hv'⟩

/-- A world keeps a contract if a relation between what was called and its state does, over
calls that satisfy `Q`. -/
theorem Path.throughout {R : ω → η ⊕ ρ → ω → Prop} {P : List η → η → Prop} {Q : η → Prop}
    (I : List η → ω → Prop) (past : List η) {w w' : ω} {steps : List (η ⊕ ρ)}
    (h : Path R w steps w') (hQ : ∀ e ∈ calls steps, Q e) (h₀ : I past w)
    (hmove : ∀ past w m w', R w (.inr m) w' → I past w → I past w')
    (hcall : ∀ past w e w', R w (.inl e) w' → Q e → I past w →
      P past e ∧ I (past ++ [e]) w') :
    Throughout P past (calls steps) ∧ I (past ++ calls steps) w' := by
  induction h generalizing past with
  | nil =>
    rw [calls, List.filterMap_nil, List.append_nil]
    exact ⟨trivial, h₀⟩
  | @cons _ _ _ step steps hs h ih =>
    cases step with
    | inl e =>
      obtain ⟨he, hQ'⟩ := List.forall_mem_cons.mp (show ∀ e' ∈ e :: calls steps, Q e' from hQ)
      obtain ⟨hP, hI⟩ := hcall _ _ _ _ hs he h₀
      obtain ⟨hrest, hend⟩ := ih _ hQ' hI
      rw [List.append_assoc] at hend
      exact ⟨⟨hP, hrest⟩, hend⟩
    | inr m => exact ih past hQ (hmove _ _ _ _ hs h₀)

end FlowctlGame.Interaction
