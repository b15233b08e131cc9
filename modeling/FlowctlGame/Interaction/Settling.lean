import FlowctlGame.Interaction.Taking

namespace FlowctlGame.Interaction.Program

variable {μ η σ ε α β : Type} {s : σ} {env : List μ}

/-- The answers `env` are enough for `m` to end, and `Q` holds of the outcome, the state and
the answers left over. -/
def Settles (m : Program μ η σ ε α) (s : σ) (env : List μ)
    (Q : Outcome ε α → σ → List μ → Prop) : Prop :=
  (m.run s env).outcome ≠ .pending ∧
    Q (m.run s env).outcome (m.run s env).state (env.drop (m.run s env).trace.length)

variable {m : Program μ η σ ε α} {f : α → Program μ η σ ε β}
  {Q Q' : Outcome ε α → σ → List μ → Prop} {R : Outcome ε β → σ → List μ → Prop}

theorem Takes.settles {used rest : List μ} {o : Outcome ε α} {s' : σ}
    (h : m.Takes s used o s') (hQ : Q o s' rest) : m.Settles s (used ++ rest) Q := by
  have hrun := h.run_append rest
  refine ⟨?_, ?_⟩
  · rw [hrun, h.outcome]
    exact h.settled
  · rw [hrun, h.outcome, h.state, h.length, List.drop_left]
    exact hQ

theorem Settles.taken {used rest : List μ} {o : Outcome ε α} {s' : σ}
    (h : m.Settles s (used ++ rest) Q) (htakes : m.Takes s used o s') : Q o s' rest := by
  have hpost := h.2
  rwa [htakes.run_append rest, htakes.outcome, htakes.state, htakes.length, List.drop_left]
    at hpost

theorem Settles.covers {used left more : List μ} {o : Outcome ε α} {s' : σ}
    (h : m.Settles s env Q) (htakes : m.Takes s used o s') (heq : used ++ left = env ++ more) :
    used <+: env := by
  rcases List.prefix_or_prefix_of_prefix (heq ▸ List.prefix_append used left)
    (List.prefix_append env more) with hshort | ⟨rest, rfl⟩
  · exact hshort
  · have hrun := m.settled s env rest h.1
    have hwithin := m.within s env
    rw [← hrun, htakes.length, List.length_append] at hwithin
    obtain rfl : rest = [] := List.eq_nil_of_length_eq_zero (by omega)
    simp

theorem Settles.outlasts {used left more : List μ} (h : m.Settles s env Q)
    (hp : (m.run s used).outcome = .pending) (heq : used ++ left = env ++ more) :
    used <+: env := by
  rcases List.prefix_or_prefix_of_prefix (heq ▸ List.prefix_append used left)
    (List.prefix_append env more) with hshort | ⟨rest, rfl⟩
  · exact hshort
  · exact absurd (m.settled s env rest h.1 ▸ hp) h.1

theorem Settles.mono (h : m.Settles s env Q) (hQ : ∀ o s' rest, Q o s' rest → Q' o s' rest) :
    m.Settles s env Q' :=
  ⟨h.1, hQ _ _ _ h.2⟩

theorem settles_pure {a : α} (h : Q (.returned a) s env) :
    (Pure.pure a : Program μ η σ ε α).Settles s env Q :=
  ⟨(fun h ↦ by cases h), h⟩

theorem settles_raise {e : ε} (h : Q (.raised e) s env) :
    (raise e : Program μ η σ ε α).Settles s env Q :=
  ⟨(fun h ↦ by cases h), h⟩

theorem settles_modify {g : σ → σ} {Q : Outcome ε Unit → σ → List μ → Prop}
    (h : Q (.returned ()) (g s) env) : (modify g : Program μ η σ ε Unit).Settles s env Q :=
  ⟨(fun h ↦ by cases h), h⟩

theorem settles_ask {reply : μ → α} {event : α → η} {answer : μ}
    (h : Q (.returned (reply answer)) s env) :
    (ask reply event : Program μ η σ ε α).Settles s (answer :: env) Q :=
  ⟨(fun h ↦ by cases h), h⟩

theorem settles_get_bind {f : σ → Program μ η σ ε β} (h : (f s).Settles s env R) :
    (get >>= f).Settles s env R := by
  have hrun : (get >>= f).run s env = (f s).run s env := by
    simp [run_bind, run_get, Execution.andThen]
  unfold Settles
  rw [hrun]
  exact h

theorem Settles.bind (h : m.Settles s env (fun o s' rest ↦
      match o with
      | .returned a => (f a).Settles s' rest R
      | .raised e => R (.raised e) s' rest
      | .pending => False)) : (m >>= f).Settles s env R := by
  obtain ⟨hm, hpost⟩ := h
  unfold Settles
  rw [run_bind]
  cases ho : (m.run s env).outcome with
  | pending => exact absurd ho hm
  | raised e =>
    rw [ho] at hpost
    simpa [Execution.andThen, ho] using hpost
  | returned a =>
    rw [ho] at hpost
    rw [Execution.andThen_returned ho, List.length_append, ← List.drop_drop]
    exact hpost

theorem Settles.returned {a : α} (h : m.Settles s env Q)
    (ho : (m.run s env).outcome = .returned a) :
    Q (.returned a) (m.run s env).state (env.drop (m.run s env).trace.length) :=
  ho ▸ h.2

/-- A loop ends if every pass that goes on takes an answer. -/
theorem Settles.loop {body : β → Program μ η σ ε (β ⊕ α)} {b : β}
    (I : β → σ → List μ → Prop) (h₀ : I b s env)
    (hbody : ∀ b s env, I b s env → (body b).Settles s env (fun o s' rest ↦
      match o with
      | .returned (.inl b') => I b' s' rest ∧ rest.length < env.length
      | .returned (.inr a) => Q (.returned a) s' rest
      | .raised e => Q (.raised e) s' rest
      | .pending => False)) : (Program.loop body b).Settles s env Q := by
  suffices key : ∀ fuel b s env, I b s env → env.length < fuel →
      (passes body fuel b s env).outcome ≠ .pending ∧
        Q (passes body fuel b s env).outcome (passes body fuel b s env).state
          (env.drop (passes body fuel b s env).trace.length) by
    exact key _ b s env h₀ (Nat.lt_succ_self _)
  intro fuel
  induction fuel with
  | zero => exact fun _ _ _ _ h ↦ absurd h (Nat.not_lt_zero _)
  | succ fuel ih =>
    intro b s env hI hfuel
    obtain ⟨hb, hpost⟩ := hbody b s env hI
    unfold passes
    cases ho : ((body b).run s env).outcome with
    | pending => exact absurd ho hb
    | raised e =>
      rw [ho] at hpost
      simpa [Execution.andThen, ho] using hpost
    | returned c =>
      rw [ho] at hpost
      rw [Execution.andThen_returned ho]
      cases c with
      | inr a => simpa using hpost
      | inl b' =>
        obtain ⟨hI', hlt⟩ := hpost
        rw [List.length_append, ← List.drop_drop]
        exact ih b' _ _ hI' (by omega)

end FlowctlGame.Interaction.Program
