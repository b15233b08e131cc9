import FlowctlGame.Interaction.Reasoning

namespace FlowctlGame.Interaction.Program

variable {μ η σ ε α β : Type} {m : Program μ η σ ε α} {f : α → Program μ η σ ε β} {s s' s'' : σ}
  {used used' : List μ}

/-- `m` takes exactly the answers `used`, and ends. -/
structure Takes (m : Program μ η σ ε α) (s : σ) (used : List μ) (o : Outcome ε α) (s' : σ) :
    Prop where
  outcome : (m.run s used).outcome = o
  state : (m.run s used).state = s'
  length : (m.run s used).trace.length = used.length
  settled : o ≠ .pending

theorem Takes.run_append {o : Outcome ε α} (h : m.Takes s used o s') (more : List μ) :
    m.run s (used ++ more) = m.run s used :=
  m.settled s used more (by rw [h.outcome]; exact h.settled)

theorem Takes.outcome_append {o : Outcome ε α} (h : m.Takes s used o s') {env more : List μ}
    (henv : env = used ++ more) : (m.run s env).outcome = o := by
  rw [henv, h.run_append]
  exact h.outcome

theorem Takes.unique {o o' : Outcome ε α} (h : m.Takes s used o s') (h' : m.Takes s used' o' s'')
    {more more' : List μ} (heq : used ++ more = used' ++ more') :
    used = used' ∧ o = o' ∧ s' = s'' := by
  have hrun : m.run s used = m.run s used' := by
    rw [← h.run_append more, heq, h'.run_append more']
  have hlen : used.length = used'.length := by
    rw [← h.length, hrun, h'.length]
  refine ⟨(List.append_inj heq hlen).1, ?_, ?_⟩
  · rw [← h.outcome, hrun, h'.outcome]
  · rw [← h.state, hrun, h'.state]

theorem takes_pure (a : α) (s : σ) :
    (Pure.pure a : Program μ η σ ε α).Takes s [] (.returned a) s :=
  ⟨rfl, rfl, rfl, fun h ↦ by cases h⟩

theorem takes_raise (e : ε) (s : σ) :
    (raise e : Program μ η σ ε α).Takes s [] (.raised e) s :=
  ⟨rfl, rfl, rfl, fun h ↦ by cases h⟩

theorem takes_modify (g : σ → σ) (s : σ) :
    (modify g : Program μ η σ ε Unit).Takes s [] (.returned ()) (g s) :=
  ⟨rfl, rfl, rfl, fun h ↦ by cases h⟩

theorem takes_ask (reply : μ → α) (event : α → η) (answer : μ) (s : σ) :
    (ask reply event : Program μ η σ ε α).Takes s [answer] (.returned (reply answer)) s :=
  ⟨rfl, rfl, rfl, fun h ↦ by cases h⟩

theorem takes_get_bind {f : σ → Program μ η σ ε β} {o : Outcome ε β}
    (h : (f s).Takes s used o s') : (get >>= f).Takes s used o s' := by
  have hrun : (get >>= f).run s used = (f s).run s used := by
    simp [run_bind, run_get, Execution.andThen]
  exact ⟨hrun ▸ h.outcome, hrun ▸ h.state, hrun ▸ h.length, h.settled⟩

theorem Takes.bind_run {a : α} (h : m.Takes s used (.returned a) s') (env : List μ) :
    (m >>= f).run s (used ++ env) = ⟨((f a).run s' env).outcome, ((f a).run s' env).state,
      (m.run s used).trace ++ ((f a).run s' env).trace⟩ := by
  have hrest : (f a).run (m.run s used).state ((used ++ env).drop (m.run s used).trace.length) =
      (f a).run s' env := by
    rw [h.state, h.length, List.drop_left]
  rw [run_bind, h.run_append, Execution.andThen_returned h.outcome, hrest]

theorem Takes.bind {a : α} {o : Outcome ε β} (h : m.Takes s used (.returned a) s')
    (hf : (f a).Takes s' used' o s'') : (m >>= f).Takes s (used ++ used') o s'' := by
  have hrun := h.bind_run (f := f) used'
  refine ⟨?_, ?_, ?_, hf.settled⟩
  · rw [hrun, hf.outcome]
  · rw [hrun, hf.state]
  · rw [hrun, List.length_append, List.length_append, h.length, hf.length]

theorem Takes.bind_silent {a : α} {o : Outcome ε β} (h : m.Takes s used (.returned a) s')
    (hf : (f a).Takes s' [] o s'') : (m >>= f).Takes s used o s'' := by
  have hbind := h.bind hf
  rwa [List.append_nil] at hbind

theorem Takes.bind_pure {a : α} {b : β} (h : m.Takes s used (.returned a) s')
    (hf : f a = Pure.pure b) : (m >>= f).Takes s used (.returned b) s' :=
  h.bind_silent (hf ▸ takes_pure b s')

theorem Takes.bind_raised {e : ε} (h : m.Takes s used (.raised e) s') :
    (m >>= f).Takes s used (.raised e) s' := by
  have hrun : (m >>= f).run s used = ⟨.raised e, (m.run s used).state, (m.run s used).trace⟩ := by
    rw [run_bind]
    unfold Execution.andThen
    simp only [h.outcome]
  exact ⟨by rw [hrun], by rw [hrun, h.state], by rw [hrun, h.length], fun h ↦ by cases h⟩

theorem Takes.scopeExit {leave : σ → σ} {unwinds : ε → Bool} {a : α}
    (h : m.Takes s used (.returned a) s') :
    (scopeExit leave unwinds m).Takes s used (.returned a) (leave s') := by
  have hrun : (Program.scopeExit leave unwinds m).run s used =
      ⟨.returned a, leave s', (m.run s used).trace⟩ := by
    simp only [Program.scopeExit, h.outcome, h.state]
  exact ⟨by rw [hrun], by rw [hrun], by rw [hrun, h.length], fun h ↦ by cases h⟩

/-- `m` may end after exactly the calls `tr`, whatever answers may follow. -/
def Performs (m : Program μ η σ ε α) (s : σ) (tr : List η) (o : Outcome ε α) (s' : σ) : Prop :=
  ∃ used, m.Takes s used o s' ∧ (m.run s used).trace = tr

section Performs

variable {tr tr' : List η} {o : Outcome ε α}

theorem Performs.executes (h : m.Performs s tr o s') : m.Executes s tr o s' := by
  obtain ⟨used, ht, rfl⟩ := h
  rw [← ht.outcome, ← ht.state]
  exact executes_run m s used

theorem performs_pure (a : α) (s : σ) :
    (Pure.pure a : Program μ η σ ε α).Performs s [] (.returned a) s :=
  ⟨[], takes_pure a s, rfl⟩

theorem performs_raise (e : ε) (s : σ) :
    (raise e : Program μ η σ ε α).Performs s [] (.raised e) s :=
  ⟨[], takes_raise e s, rfl⟩

theorem performs_ask (reply : μ → α) (event : α → η) (answer : μ) (s : σ) :
    (ask reply event : Program μ η σ ε α).Performs s [event (reply answer)]
      (.returned (reply answer)) s :=
  ⟨[answer], takes_ask reply event answer s, rfl⟩

theorem Performs.bind {a : α} {o : Outcome ε β} (h : m.Performs s tr (.returned a) s')
    (hf : (f a).Performs s' tr' o s'') : (m >>= f).Performs s (tr ++ tr') o s'' := by
  obtain ⟨used, ht, rfl⟩ := h
  obtain ⟨used', ht', rfl⟩ := hf
  exact ⟨used ++ used', ht.bind ht', by rw [ht.bind_run used']⟩

theorem Performs.bind_raised {e : ε} (h : m.Performs s tr (.raised e) s') :
    (m >>= f).Performs s tr (.raised e) s' := by
  obtain ⟨used, ht, rfl⟩ := h
  refine ⟨used, ht.bind_raised, ?_⟩
  rw [run_bind, Execution.andThen]
  simp only [ht.outcome]

end Performs

section Loop

variable {body : β → Program μ η σ ε (β ⊕ α)} {b b' : β}

theorem Takes.loop_last {a : α} (h : (body b).Takes s used (.returned (.inr a)) s') :
    (loop body b).Takes s used (.returned a) s' := by
  have hrun : (loop body b).run s used = ⟨.returned a, s', ((body b).run s used).trace⟩ := by
    simp only [loop, passes, Execution.andThen, h.outcome, h.state, List.append_nil]
  exact ⟨by rw [hrun], by rw [hrun], by rw [hrun]; exact h.length, fun h ↦ by cases h⟩

theorem Takes.loop_raised {e : ε} (h : (body b).Takes s used (.raised e) s') :
    (loop body b).Takes s used (.raised e) s' := by
  have hrun : (loop body b).run s used = ⟨.raised e, s', ((body b).run s used).trace⟩ := by
    simp only [loop, passes, Execution.andThen, h.outcome, h.state]
  exact ⟨by rw [hrun], by rw [hrun], by rw [hrun]; exact h.length, fun h ↦ by cases h⟩

theorem Takes.loop_next {o : Outcome ε α} (h : (body b).Takes s used (.returned (.inl b')) s')
    (hused : used ≠ []) (hloop : (loop body b').Takes s' used' o s'') :
    (loop body b).Takes s (used ++ used') o s'' := by
  have hlen : used'.length + 1 ≤ (used ++ used').length := by
    have hpos := List.length_pos_of_ne_nil hused
    rw [List.length_append]
    omega
  have hne : (passes body (used'.length + 1) b' s' used').outcome ≠ .pending := by
    intro hp
    exact hloop.settled (hloop.outcome.symm.trans hp)
  have hrest : passes body (used ++ used').length b' s' used' = (loop body b').run s' used' := by
    have hmore := passes_settled body hlen b' s' used' [] hne
    rwa [List.append_nil] at hmore
  have hrun : (loop body b).run s (used ++ used') =
      ⟨((loop body b').run s' used').outcome, ((loop body b').run s' used').state,
        ((body b).run s used).trace ++ ((loop body b').run s' used').trace⟩ := by
    rw [← hrest]
    simp only [loop, passes, h.run_append, Execution.andThen, h.outcome, h.state, h.length,
      List.drop_left]
  refine ⟨?_, ?_, ?_, hloop.settled⟩
  · rw [hrun, hloop.outcome]
  · rw [hrun, hloop.state]
  · rw [hrun, List.length_append, List.length_append, h.length, hloop.length]

end Loop

end FlowctlGame.Interaction.Program
