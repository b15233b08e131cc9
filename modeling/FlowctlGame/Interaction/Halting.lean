import FlowctlGame.Interaction.Program
import FlowctlGame.Interaction.Stream

namespace FlowctlGame.Interaction.Program

variable {μ η σ τ ε α β : Type} {ω : Stream μ}

/-- With the answers of `ω` from position `k` on, `m` comes to an end, and `Q` holds of the
outcome, the state and the position reached. -/
def Halts (m : Program μ η σ ε α) (ω : Stream μ) (s : σ) (k : ℕ)
    (Q : Outcome ε α → σ → ℕ → Prop) : Prop :=
  ∃ n, (m.run s (ω.slice k n)).outcome ≠ .pending ∧
    Q (m.run s (ω.slice k n)).outcome (m.run s (ω.slice k n)).state
      (k + (m.run s (ω.slice k n)).trace.length)

def Diverges (m : Program μ η σ ε α) (ω : Stream μ) (s : σ) (k : ℕ) : Prop :=
  ∀ n, (m.run s (ω.slice k n)).outcome = .pending

theorem run_slice_mono {m : Program μ η σ ε α} {s : σ} {k n n' : ℕ} (h : n ≤ n')
    (hm : (m.run s (ω.slice k n)).outcome ≠ .pending) :
    m.run s (ω.slice k n') = m.run s (ω.slice k n) := by
  obtain ⟨d, rfl⟩ := Nat.exists_eq_add_of_le h
  rw [← Stream.slice_append]
  exact m.settled s _ _ hm

theorem run_slice_settled {m : Program μ η σ ε α} {s : σ} {k n n' : ℕ}
    (h : (m.run s (ω.slice k n)).outcome ≠ .pending)
    (h' : (m.run s (ω.slice k n')).outcome ≠ .pending) :
    m.run s (ω.slice k n) = m.run s (ω.slice k n') := by
  rcases Nat.le_total n n' with hle | hle
  · exact (run_slice_mono hle h).symm
  · exact run_slice_mono hle h'

theorem passes_slice_mono {body : β → Program μ η σ ε (β ⊕ α)} {b : β} {s : σ}
    {k n n' fuel fuel' : ℕ} (h : n ≤ n') (hfuel : fuel ≤ fuel')
    (hm : (passes body fuel b s (ω.slice k n)).outcome ≠ .pending) :
    passes body fuel' b s (ω.slice k n') = passes body fuel b s (ω.slice k n) := by
  obtain ⟨d, rfl⟩ := Nat.exists_eq_add_of_le h
  rw [← Stream.slice_append]
  exact passes_settled body hfuel b s _ _ hm

theorem Halts.mono {m : Program μ η σ ε α} {s : σ} {k : ℕ} {Q R : Outcome ε α → σ → ℕ → Prop}
    (h : m.Halts ω s k Q) (hQ : ∀ o s' k', k ≤ k' → Q o s' k' → R o s' k') : m.Halts ω s k R := by
  obtain ⟨n, hn, hq⟩ := h
  exact ⟨n, hn, hQ _ _ _ (Nat.le_add_right _ _) hq⟩

theorem halts_pure {a : α} {s : σ} {k : ℕ} {Q : Outcome ε α → σ → ℕ → Prop}
    (h : Q (.returned a) s k) : (Pure.pure a : Program μ η σ ε α).Halts ω s k Q :=
  ⟨0, (fun h ↦ by cases h), h⟩

theorem halts_raise {e : ε} {s : σ} {k : ℕ} {Q : Outcome ε α → σ → ℕ → Prop}
    (h : Q (.raised e) s k) : (raise e : Program μ η σ ε α).Halts ω s k Q :=
  ⟨0, (fun h ↦ by cases h), h⟩

theorem halts_get {s : σ} {k : ℕ} {Q : Outcome ε σ → σ → ℕ → Prop}
    (h : Q (.returned s) s k) : (get : Program μ η σ ε σ).Halts ω s k Q :=
  ⟨0, (fun h ↦ by cases h), h⟩

theorem halts_modify {g : σ → σ} {s : σ} {k : ℕ} {Q : Outcome ε Unit → σ → ℕ → Prop}
    (h : Q (.returned ()) (g s) k) : (modify g : Program μ η σ ε Unit).Halts ω s k Q :=
  ⟨0, (fun h ↦ by cases h), h⟩

theorem halts_ask {reply : μ → α} {event : α → η} {s : σ} {k : ℕ}
    {Q : Outcome ε α → σ → ℕ → Prop} (h : Q (.returned (reply (ω.symbol k))) s (k + 1)) :
    (ask reply event : Program μ η σ ε α).Halts ω s k Q := by
  refine ⟨1, ?_, ?_⟩
  · rw [Stream.slice_one]
    exact fun h ↦ by cases h
  · rw [Stream.slice_one]
    exact h

theorem Halts.bind {m : Program μ η σ ε α} {f : α → Program μ η σ ε β} {s : σ} {k : ℕ}
    {Q : Outcome ε β → σ → ℕ → Prop}
    (h : m.Halts ω s k (fun o s' k' ↦
      match o with
      | .returned a => (f a).Halts ω s' k' Q
      | .raised e => Q (.raised e) s' k'
      | .pending => False)) : (m >>= f).Halts ω s k Q := by
  obtain ⟨n, hn, hpost⟩ := h
  cases ho : (m.run s (ω.slice k n)).outcome with
  | pending => exact absurd ho hn
  | raised e =>
    rw [ho] at hpost
    refine ⟨n, ?_, ?_⟩
    · simp [run_bind, Execution.andThen, ho]
    · simpa [run_bind, Execution.andThen, ho] using hpost
  | returned a =>
    rw [ho] at hpost
    obtain ⟨n', hn', hq⟩ := hpost
    have hwithin := m.within s (ω.slice k n)
    rw [Stream.slice_length] at hwithin
    have hm : m.run s (ω.slice k (n + n')) = m.run s (ω.slice k n) :=
      run_slice_mono (Nat.le_add_right _ _) hn
    have hf : (f a).run (m.run s (ω.slice k n)).state
        ((ω.slice k (n + n')).drop (m.run s (ω.slice k n)).trace.length) =
        (f a).run (m.run s (ω.slice k n)).state
          (ω.slice (k + (m.run s (ω.slice k n)).trace.length) n') := by
      rw [Stream.slice_drop ω k (by omega)]
      exact run_slice_mono (by omega) hn'
    refine ⟨n + n', ?_, ?_⟩
    · rw [run_bind, hm, Execution.andThen_returned ho, hf]
      exact hn'
    · rw [run_bind, hm, Execution.andThen_returned ho, hf, List.length_append, ← Nat.add_assoc]
      exact hq

theorem Halts.bind_diverges {m : Program μ η σ ε α} {f : α → Program μ η σ ε β} {s : σ} {k : ℕ}
    (h : m.Halts ω s k (fun o s' k' ↦ ∃ a, o = .returned a ∧ (f a).Diverges ω s' k')) :
    (m >>= f).Diverges ω s k := by
  obtain ⟨n, hn, a, ho, hdiv⟩ := h
  intro n'
  by_cases hp : (m.run s (ω.slice k n')).outcome = .pending
  · simp [run_bind, Execution.andThen, hp]
  · have heq : m.run s (ω.slice k n') = m.run s (ω.slice k n) := run_slice_settled hp hn
    have hwithin := m.within s (ω.slice k n')
    rw [Stream.slice_length, heq] at hwithin
    rw [run_bind, heq, Execution.andThen_returned ho, Stream.slice_drop ω k hwithin]
    exact hdiv _

theorem Diverges.bind {m : Program μ η σ ε α} {s : σ} {k : ℕ} (h : m.Diverges ω s k)
    (f : α → Program μ η σ ε β) : (m >>= f).Diverges ω s k := by
  intro n
  simp [run_bind, Execution.andThen, h n]

theorem halts_loop_of_passes {body : β → Program μ η σ ε (β ⊕ α)} {b : β} {s : σ}
    {k fuel n : ℕ} {Q : Outcome ε α → σ → ℕ → Prop}
    (hn : (passes body fuel b s (ω.slice k n)).outcome ≠ .pending)
    (hq : Q (passes body fuel b s (ω.slice k n)).outcome (passes body fuel b s (ω.slice k n)).state
      (k + (passes body fuel b s (ω.slice k n)).trace.length)) :
    (Program.loop body b).Halts ω s k Q := by
  have hrun : (Program.loop body b).run s (ω.slice k (n + fuel)) =
      passes body fuel b s (ω.slice k n) := by
    refine passes_slice_mono (Nat.le_add_right n fuel) ?_ hn
    rw [Stream.slice_length]
    omega
  refine ⟨n + fuel, ?_, ?_⟩
  · rw [hrun]
    exact hn
  · rw [hrun]
    exact hq

/-- A loop ends if every pass that goes on goes down an accessible order. -/
theorem Halts.loop {body : β → Program μ η σ ε (β ⊕ α)} {r : β × σ × ℕ → β × σ × ℕ → Prop}
    {Q : Outcome ε α → σ → ℕ → Prop} {b : β} {s : σ} {k : ℕ} (I : β → σ → ℕ → Prop)
    (hacc : Acc r (b, s, k)) (h₀ : I b s k)
    (hbody : ∀ b s k, I b s k → (body b).Halts ω s k (fun o s' k' ↦
      match o with
      | .returned (.inl b') => I b' s' k' ∧ r (b', s', k') (b, s, k)
      | .returned (.inr a) => Q (.returned a) s' k'
      | .raised e => Q (.raised e) s' k'
      | .pending => False)) : (Program.loop body b).Halts ω s k Q := by
  suffices key : ∃ fuel n, (passes body fuel b s (ω.slice k n)).outcome ≠ .pending ∧
      Q (passes body fuel b s (ω.slice k n)).outcome (passes body fuel b s (ω.slice k n)).state
        (k + (passes body fuel b s (ω.slice k n)).trace.length) by
    obtain ⟨fuel, n, hn, hq⟩ := key
    exact halts_loop_of_passes hn hq
  generalize hx : (b, s, k) = x at hacc
  induction hacc generalizing b s k with
  | intro x _ ih =>
    subst hx
    obtain ⟨n, hn, hpost⟩ := hbody b s k h₀
    cases ho : ((body b).run s (ω.slice k n)).outcome with
    | pending => exact absurd ho hn
    | raised e =>
      rw [ho] at hpost
      refine ⟨1, n, ?_, ?_⟩
      · simp [passes, Execution.andThen, ho]
      · simpa [passes, Execution.andThen, ho] using hpost
    | returned c =>
      rw [ho] at hpost
      cases c with
      | inr a =>
        refine ⟨1, n, ?_, ?_⟩
        · simp [passes, Execution.andThen, ho]
        · simpa [passes, Execution.andThen, ho] using hpost
      | inl b' =>
        obtain ⟨hI, hr⟩ := hpost
        obtain ⟨fuel, n', hn', hq⟩ := ih _ hr hI rfl
        have hwithin := (body b).within s (ω.slice k n)
        rw [Stream.slice_length] at hwithin
        have hm : (body b).run s (ω.slice k (n + n')) = (body b).run s (ω.slice k n) :=
          run_slice_mono (Nat.le_add_right _ _) hn
        have hrest : passes body fuel b' ((body b).run s (ω.slice k n)).state
            ((ω.slice k (n + n')).drop ((body b).run s (ω.slice k n)).trace.length) =
            passes body fuel b' ((body b).run s (ω.slice k n)).state
              (ω.slice (k + ((body b).run s (ω.slice k n)).trace.length) n') := by
          rw [Stream.slice_drop ω k (by omega)]
          exact passes_slice_mono (by omega) (Nat.le_refl _) hn'
        refine ⟨fuel + 1, n + n', ?_, ?_⟩
        · rw [passes, hm, Execution.andThen_returned ho]
          simp only [hrest]
          exact hn'
        · rw [passes, hm, Execution.andThen_returned ho]
          simp only [hrest, List.length_append, ← Nat.add_assoc]
          exact hq

theorem Halts.loop_rank {body : β → Program μ η σ ε (β ⊕ α)} (rank : β → σ → ℕ → ℕ)
    {Q : Outcome ε α → σ → ℕ → Prop} {b : β} {s : σ} {k : ℕ} (I : β → σ → ℕ → Prop)
    (h₀ : I b s k)
    (hbody : ∀ b s k, I b s k → (body b).Halts ω s k (fun o s' k' ↦
      match o with
      | .returned (.inl b') => I b' s' k' ∧ rank b' s' k' < rank b s k
      | .returned (.inr a) => Q (.returned a) s' k'
      | .raised e => Q (.raised e) s' k'
      | .pending => False)) : (Program.loop body b).Halts ω s k Q :=
  Halts.loop I ((measure (fun x : β × σ × ℕ ↦ rank x.1 x.2.1 x.2.2)).wf.apply (b, s, k)) h₀ hbody

theorem diverges_ask_bind {reply : μ → α} {event : α → η} {f : α → Program μ η σ ε β} {s : σ}
    {k : ℕ} (h : (f (reply (ω.symbol k))).Diverges ω s (k + 1)) :
    (ask reply event >>= f).Diverges ω s k :=
  Halts.bind_diverges (halts_ask ⟨_, rfl, h⟩)

theorem diverges_get_bind {f : σ → Program μ η σ ε β} {s : σ} {k : ℕ}
    (h : (f s).Diverges ω s k) : (get >>= f).Diverges ω s k :=
  Halts.bind_diverges (halts_get ⟨_, rfl, h⟩)

/-- What is asked of the end of a run that may also end with an error. -/
def Finished (R : α → σ → ℕ → Prop) : Outcome ε α → σ → ℕ → Prop
  | .returned a, s, k => R a s k
  | .raised _, _, _ => True
  | .pending, _, _ => False

/-- `m` comes to an end, and `R` holds if it returns. -/
def Finishes (m : Program μ η σ ε α) (ω : Stream μ) (s : σ) (k : ℕ)
    (R : α → σ → ℕ → Prop) : Prop :=
  m.Halts ω s k (Finished R)

section Finishes

variable {m : Program μ η σ ε α} {f : α → Program μ η σ ε β} {s : σ} {k : ℕ}
  {R : α → σ → ℕ → Prop}

theorem Finishes.halts (h : m.Finishes ω s k R) :
    ∃ n, (m.run s (ω.slice k n)).outcome ≠ .pending := by
  obtain ⟨n, hn, -⟩ := h
  exact ⟨n, hn⟩

theorem Finishes.mono {T : α → σ → ℕ → Prop} (h : m.Finishes ω s k R)
    (hT : ∀ a s' k', k ≤ k' → R a s' k' → T a s' k') : m.Finishes ω s k T := by
  refine Halts.mono h (fun o s' k' hk hR ↦ ?_)
  cases o with
  | returned a => exact hT a s' k' hk hR
  | raised e => exact trivial
  | pending => exact hR

theorem finishes_pure {a : α} (h : R a s k) :
    (Pure.pure a : Program μ η σ ε α).Finishes ω s k R :=
  halts_pure h

theorem finishes_raise {e : ε} : (raise e : Program μ η σ ε α).Finishes ω s k R :=
  halts_raise trivial

theorem finishes_ask {reply : μ → α} {event : α → η} (h : R (reply (ω.symbol k)) s (k + 1)) :
    (ask reply event : Program μ η σ ε α).Finishes ω s k R :=
  halts_ask h

theorem finishes_modify {g : σ → σ} {R : Unit → σ → ℕ → Prop} (h : R () (g s) k) :
    (modify g : Program μ η σ ε Unit).Finishes ω s k R :=
  halts_modify h

theorem Finishes.bind {R : β → σ → ℕ → Prop}
    (h : m.Finishes ω s k (fun a s' k' ↦ (f a).Finishes ω s' k' R)) :
    (m >>= f).Finishes ω s k R := by
  refine Halts.bind (Halts.mono h (fun o s' k' _ ho ↦ ?_))
  cases o with
  | returned a => exact ho
  | raised e => exact trivial
  | pending => exact ho

theorem finishes_get_bind {f : σ → Program μ η σ ε β} {R : β → σ → ℕ → Prop}
    (h : (f s).Finishes ω s k R) : (get >>= f).Finishes ω s k R :=
  Finishes.bind (halts_get h)

theorem Finishes.focus {look : σ → Option τ} {put : τ → σ → σ} {absent : ε}
    {m : Program μ η τ ε α} {R : α → σ → ℕ → Prop}
    (h : ∀ t, look s = some t → m.Finishes ω t k (fun a t' k' ↦ R a (put t' s) k')) :
    (focus look put absent m).Finishes ω s k R := by
  cases hs : look s with
  | none =>
    refine ⟨0, ?_, ?_⟩
    · simp [run_focus_absent hs]
    · rw [run_focus_absent hs]
      exact trivial
  | some t =>
    obtain ⟨n, hn, hR⟩ := h t hs
    refine ⟨n, ?_, ?_⟩
    · rwa [run_focus hs]
    · rw [run_focus hs]
      cases ho : (m.run t (ω.slice k n)).outcome with
      | returned a =>
        rw [ho] at hR
        exact hR
      | raised e => exact trivial
      | pending => exact absurd ho hn

theorem Finishes.scopeExit {leave : σ → σ} {unwinds : ε → Bool} {R : α → σ → ℕ → Prop}
    (h : m.Finishes ω s k (fun a s' k' ↦ R a (leave s') k')) :
    (scopeExit leave unwinds m).Finishes ω s k R := by
  obtain ⟨n, hn, hR⟩ := h
  cases ho : (m.run s (ω.slice k n)).outcome with
  | pending => exact absurd ho hn
  | returned a =>
    rw [ho] at hR
    refine ⟨n, ?_, ?_⟩
    · simp [Program.scopeExit, ho]
    · simp only [Program.scopeExit, ho]
      exact hR
  | raised e =>
    refine ⟨n, ?_, ?_⟩
    · simp [Program.scopeExit, ho]
    · simp only [Program.scopeExit, ho]
      exact trivial

theorem Finishes.loop {body : β → Program μ η σ ε (β ⊕ α)}
    {r : β × σ × ℕ → β × σ × ℕ → Prop} {b : β} (I : β → σ → ℕ → Prop)
    (hacc : Acc r (b, s, k)) (h₀ : I b s k)
    (hbody : ∀ b s k, I b s k → (body b).Finishes ω s k (fun c s' k' ↦
      match c with
      | .inl b' => I b' s' k' ∧ r (b', s', k') (b, s, k)
      | .inr a => R a s' k')) : (Program.loop body b).Finishes ω s k R := by
  refine Halts.loop I hacc h₀ (fun b s k hI ↦ Halts.mono (hbody b s k hI) ?_)
  intro o s' k' _ ho
  cases o with
  | returned c => cases c <;> exact ho
  | raised e => exact trivial
  | pending => exact ho

theorem Finishes.loop_rank {body : β → Program μ η σ ε (β ⊕ α)} (rank : β → σ → ℕ → ℕ) {b : β}
    (I : β → σ → ℕ → Prop) (h₀ : I b s k)
    (hbody : ∀ b s k, I b s k → (body b).Finishes ω s k (fun c s' k' ↦
      match c with
      | .inl b' => I b' s' k' ∧ rank b' s' k' < rank b s k
      | .inr a => R a s' k')) : (Program.loop body b).Finishes ω s k R :=
  Finishes.loop I ((measure (fun x : β × σ × ℕ ↦ rank x.1 x.2.1 x.2.2)).wf.apply (b, s, k)) h₀ hbody

end Finishes

theorem Diverges.loop {body : β → Program μ η σ ε (β ⊕ α)} {b : β} {s : σ} {k : ℕ}
    (I : β → σ → ℕ → Prop) (h₀ : I b s k)
    (hbody : ∀ b s k, I b s k → (body b).Diverges ω s k ∨
      (body b).Halts ω s k (fun o s' k' ↦ ∃ b', o = .returned (.inl b') ∧ I b' s' k')) :
    (Program.loop body b).Diverges ω s k := by
  suffices key : ∀ fuel n b s k, I b s k →
      (passes body fuel b s (ω.slice k n)).outcome = .pending by
    exact fun n ↦ key _ n b s k h₀
  intro fuel
  induction fuel with
  | zero => exact fun _ _ _ _ _ ↦ rfl
  | succ fuel ih =>
    intro n b s k hI
    by_cases hp : ((body b).run s (ω.slice k n)).outcome = .pending
    · simp [passes, Execution.andThen, hp]
    · rcases hbody b s k hI with hdiv | ⟨n', hn', b', ho, hI'⟩
      · exact absurd (hdiv n) hp
      · have heq : (body b).run s (ω.slice k n) = (body b).run s (ω.slice k n') :=
          run_slice_settled hp hn'
        have hwithin := (body b).within s (ω.slice k n)
        rw [Stream.slice_length, heq] at hwithin
        rw [passes, heq, Execution.andThen_returned ho]
        simp only [Stream.slice_drop ω k hwithin]
        exact ih _ b' _ _ hI'

end FlowctlGame.Interaction.Program
