import FlowctlGame.Interaction.Reasoning

namespace FlowctlGame.Interaction

/-- What a program may do at any time: the states it stays in, the calls it makes, and the
errors it raises as long as no call is answered in a fatal way. -/
structure Contract (η σ ε : Type) where
  invariant : σ → Prop
  allowed : η → Prop
  fatal : η → Prop
  error : ε → Prop

namespace Program

variable {μ η σ ε α β : Type}

def Meets (m : Program μ η σ ε α) (C : Contract η σ ε) : Prop :=
  ∀ s, C.invariant s → m.Ensures s (fun tr o s' ↦ C.invariant s' ∧ (∀ e ∈ tr, C.allowed e) ∧
    ∀ err, o = .raised err → C.error err ∨ ∃ e ∈ tr, C.fatal e)

variable {C : Contract η σ ε}

theorem meets_pure (a : α) : (Pure.pure a : Program μ η σ ε α).Meets C := by
  intro s hs
  simp [hs]

theorem meets_raise {e : ε} (h : C.error e) : (raise e : Program μ η σ ε α).Meets C := by
  intro s hs
  simp [hs, h]

theorem meets_modify {g : σ → σ} (h : ∀ s, C.invariant s → C.invariant (g s)) :
    (modify g : Program μ η σ ε Unit).Meets C := by
  intro s hs
  simp [h s hs]

theorem meets_ask {reply : μ → α} {event : α → η} (h : ∀ a, C.allowed (event a)) :
    (ask reply event : Program μ η σ ε α).Meets C := by
  intro s hs
  simp [hs, h]

theorem Meets.bind {m : Program μ η σ ε α} {f : α → Program μ η σ ε β} (h : m.Meets C)
    (hf : ∀ a, (f a).Meets C) : (m >>= f).Meets C := by
  intro s hs
  refine (h s hs).sequence ?_ ?_ ?_
  · intro tr a s' hm
    refine (hf a s' hm.1).mono (fun tr' o s'' hrest ↦ ?_)
    refine ⟨hrest.1, List.forall_mem_append.mpr ⟨hm.2.1, hrest.2.1⟩, fun err he ↦ ?_⟩
    refine (hrest.2.2 err he).imp_right (fun hfatal ↦ ?_)
    obtain ⟨e, hmem, hfatal⟩ := hfatal
    exact ⟨e, List.mem_append_right _ hmem, hfatal⟩
  · exact fun tr e s' hm ↦ ⟨hm.1, hm.2.1, fun err he ↦ hm.2.2 err (by cases he; rfl)⟩
  · exact fun tr s' hm ↦ ⟨hm.1, hm.2.1, fun _ h ↦ by cases h⟩

theorem meets_get_bind {f : σ → Program μ η σ ε β}
    (h : ∀ s, C.invariant s → (f s).Meets C) : (get >>= f).Meets C :=
  fun s hs ↦ ensures_get_bind.mpr (h s hs s hs)

theorem Meets.loop {body : β → Program μ η σ ε (β ⊕ α)} (h : ∀ b, (body b).Meets C) (b : β) :
    (Program.loop body b).Meets C := by
  intro s hs
  refine Ensures.loop (fun _ tr s ↦ C.invariant s ∧ ∀ e ∈ tr, C.allowed e) ⟨hs, by simp⟩
    (fun _ _ _ hI ↦ ⟨hI.1, hI.2, fun _ h ↦ by cases h⟩) ?_
  intro b tr s hI
  refine (h b s hI.1).mono (fun tr' o s' hb ↦ ?_)
  have hall := List.forall_mem_append.mpr ⟨hI.2, hb.2.1⟩
  rcases o with (b' | a) | e | _
  · exact ⟨hb.1, hall⟩
  · exact ⟨hb.1, hall, fun _ h ↦ by cases h⟩
  · refine ⟨hb.1, hall, fun err he ↦ ?_⟩
    cases he
    refine (hb.2.2 e rfl).imp_right (fun hfatal ↦ ?_)
    obtain ⟨e', hmem, hfatal⟩ := hfatal
    exact ⟨e', List.mem_append_right _ hmem, hfatal⟩
  · exact ⟨hb.1, hall, fun _ h ↦ by cases h⟩

theorem Meets.scopeExit {leave : σ → σ} {unwinds : ε → Bool} {m : Program μ η σ ε α}
    (h : m.Meets C) (hleave : ∀ s, C.invariant s → C.invariant (leave s)) :
    (Program.scopeExit leave unwinds m).Meets C := by
  intro s hs
  refine Ensures.scopeExit ((h s hs).mono (fun tr o s' hm ↦ ?_))
  cases o with
  | returned a => exact ⟨hleave s' hm.1, hm.2.1, fun _ h ↦ by cases h⟩
  | raised e =>
    refine ⟨?_, hm.2⟩
    cases unwinds e with
    | true => exact hleave s' hm.1
    | false => exact hm.1
  | pending => exact hm

end Program

end FlowctlGame.Interaction
