import FlowctlGame.Interaction.Program

namespace FlowctlGame.Interaction

variable {μ η σ τ ε α β γ δ : Type}

def Outcome.map (f : α → β) : Outcome ε α → Outcome ε β
  | .returned a => .returned (f a)
  | .raised e => .raised e
  | .pending => .pending

theorem Outcome.map_id (o : Outcome ε α) : o.map id = o := by
  cases o <;> rfl

/-- How a second run looks beside a first one: what it is answered, the calls it makes and the
states it passes through. -/
structure Coupling (μ η σ τ : Type) where
  answer : μ → μ
  event : η → η
  state : σ → τ → Prop

/-- The second execution is the first one under the coupling, and its result under `f`. -/
structure Execution.Coupled (C : Coupling μ η σ τ) (f : α → β) (x : Execution η σ ε α)
    (y : Execution η τ ε β) : Prop where
  outcome : y.outcome = x.outcome.map f
  state : C.state x.state y.state
  trace : y.trace = x.trace.map C.event

theorem Execution.Coupled.andThen {C : Coupling μ η σ τ} {f : α → β} {g : γ → δ}
    {x : Execution η σ ε α} {y : Execution η τ ε β} {k : α → σ → Execution η σ ε γ}
    {k' : β → τ → Execution η τ ε δ} (h : x.Coupled C f y)
    (hk : ∀ a, x.outcome = .returned a → (k a x.state).Coupled C g (k' (f a) y.state)) :
    (x.andThen k).Coupled C g (y.andThen k') := by
  obtain ⟨hout, hstate, htrace⟩ := h
  cases ho : x.outcome with
  | returned a =>
    obtain ⟨hout', hstate', htrace'⟩ := hk a ho
    rw [ho] at hout
    rw [andThen_returned ho, andThen_returned hout]
    exact ⟨hout', hstate', by rw [htrace, htrace', List.map_append]⟩
  | raised e =>
    rw [ho] at hout
    simp only [Execution.andThen, ho, hout, Outcome.map]
    exact ⟨rfl, hstate, htrace⟩
  | pending =>
    rw [ho] at hout
    simp only [Execution.andThen, ho, hout, Outcome.map]
    exact ⟨rfl, hstate, htrace⟩

namespace Program

/-- Answered in the way of the coupling, `m'` takes from `s'` the steps that `m` takes from `s`
on the answers `env`; its result is that of `m` under `f`. -/
def Follows (C : Coupling μ η σ τ) (f : α → β) (m : Program μ η σ ε α) (m' : Program μ η τ ε β)
    (s : σ) (s' : τ) (env : List μ) : Prop :=
  (m.run s env).Coupled C f (m'.run s' (env.map C.answer))

variable {C : Coupling μ η σ τ} {s : σ} {s' : τ} {env : List μ} {f : α → β} {g : γ → δ}

theorem follows_pure {a : α} (h : C.state s s') :
    Follows C f (Pure.pure a : Program μ η σ ε α) (Pure.pure (f a)) s s' env :=
  ⟨rfl, h, rfl⟩

theorem follows_raise {e : ε} (h : C.state s s') :
    Follows C f (raise e : Program μ η σ ε α) (raise e) s s' env :=
  ⟨rfl, h, rfl⟩

theorem follows_modify {u : σ → σ} {u' : τ → τ} (h : C.state (u s) (u' s')) :
    Follows C id (modify u : Program μ η σ ε Unit) (modify u') s s' env :=
  ⟨rfl, h, rfl⟩

theorem follows_ask {reply : μ → α} {event : α → η} {reply' : μ → β} {event' : β → η}
    (h : C.state s s') (hreply : ∀ m, reply' (C.answer m) = f (reply m))
    (hevent : ∀ a, event' (f a) = C.event (event a)) :
    Follows C f (ask reply event : Program μ η σ ε α) (ask reply' event') s s' env := by
  cases env with
  | nil => exact ⟨rfl, h, rfl⟩
  | cons m env =>
    have hout : reply' (C.answer m) = f (reply m) := hreply m
    refine ⟨?_, h, ?_⟩
    · simp only [ask, List.map_cons, Outcome.map, hout]
    · simp only [ask, List.map_cons, List.map_nil, hout, hevent]

theorem follows_get_bind {k : σ → Program μ η σ ε α} {k' : τ → Program μ η τ ε β}
    (h : Follows C f (k s) (k' s') s s' env) : Follows C f (get >>= k) (get >>= k') s s' env := by
  unfold Follows
  rw [run_get_bind, run_get_bind]
  exact h

theorem follows_modify_bind {u : σ → σ} {u' : τ → τ} {k : Unit → Program μ η σ ε α}
    {k' : Unit → Program μ η τ ε β} (h : Follows C f (k ()) (k' ()) (u s) (u' s') env) :
    Follows C f (modify u >>= k) (modify u' >>= k') s s' env := by
  have hrun {γ σ : Type} (u : σ → σ) (k : Unit → Program μ η σ ε γ) (t : σ) (env : List μ) :
      (modify u >>= k).run t env = (k ()).run (u t) env := rfl
  unfold Follows
  rw [hrun, hrun]
  exact h

theorem follows_ite {p : Prop} [Decidable p] {m₁ m₂ : Program μ η σ ε α}
    {m₁' m₂' : Program μ η τ ε β} (h₁ : p → Follows C f m₁ m₁' s s' env)
    (h₂ : ¬ p → Follows C f m₂ m₂' s s' env) :
    Follows C f (if p then m₁ else m₂) (if p then m₁' else m₂') s s' env := by
  by_cases hp : p
  · rw [if_pos hp, if_pos hp]
    exact h₁ hp
  · rw [if_neg hp, if_neg hp]
    exact h₂ hp

theorem Follows.bind_run {m : Program μ η σ ε α} {m' : Program μ η τ ε β}
    {k : α → Program μ η σ ε γ} {k' : β → Program μ η τ ε δ} (hm : Follows C f m m' s s' env)
    (hk : ∀ a, (m.run s env).outcome = .returned a →
      Follows C g (k a) (k' (f a)) (m.run s env).state (m'.run s' (env.map C.answer)).state
        (env.drop (m.run s env).trace.length)) :
    Follows C g (m >>= k) (m' >>= k') s s' env := by
  unfold Follows
  rw [run_bind, run_bind]
  refine Execution.Coupled.andThen hm (fun a ho ↦ ?_)
  rw [hm.trace, List.length_map, ← List.map_drop]
  exact hk a ho

theorem Follows.bind {m : Program μ η σ ε α} {m' : Program μ η τ ε β}
    {k : α → Program μ η σ ε γ} {k' : β → Program μ η τ ε δ} (hm : Follows C f m m' s s' env)
    (hk : ∀ a t', (m.run s env).outcome = .returned a → C.state (m.run s env).state t' →
      Follows C g (k a) (k' (f a)) (m.run s env).state t'
        (env.drop (m.run s env).trace.length)) :
    Follows C g (m >>= k) (m' >>= k') s s' env :=
  hm.bind_run (fun a ho ↦ hk a _ ho hm.state)

theorem run_ask_bind {reply : μ → α} {event : α → η} {k : α → Program μ η σ ε γ} {m : μ} :
    (ask reply event >>= k).run s (m :: env) = ⟨((k (reply m)).run s env).outcome,
      ((k (reply m)).run s env).state, event (reply m) :: ((k (reply m)).run s env).trace⟩ := rfl

theorem follows_ask_bind {reply : μ → α} {event : α → η} {reply' : μ → β} {event' : β → η}
    {k : α → Program μ η σ ε γ} {k' : β → Program μ η τ ε δ} (h : C.state s s')
    (hreply : ∀ m, reply' (C.answer m) = f (reply m))
    (hevent : ∀ a, event' (f a) = C.event (event a))
    (hk : ∀ m rest, env = m :: rest →
      Follows C g (k (reply m)) (k' (f (reply m))) s s' rest) :
    Follows C g (ask reply event >>= k) (ask reply' event' >>= k') s s' env := by
  cases env with
  | nil => exact ⟨rfl, h, rfl⟩
  | cons m env =>
    obtain ⟨hout, hstate, htrace⟩ := hk m env rfl
    unfold Follows
    rw [List.map_cons, run_ask_bind, run_ask_bind, hreply, hevent]
    refine ⟨hout, hstate, ?_⟩
    rw [List.map_cons, htrace]

theorem outcome_bind {m : Program μ η σ ε α} {k : α → Program μ η σ ε γ} {a : α}
    (ho : (m.run s env).outcome = .returned a) :
    ((m >>= k).run s env).outcome =
      ((k a).run (m.run s env).state (env.drop (m.run s env).trace.length)).outcome := by
  rw [run_bind, Execution.andThen_returned ho]

theorem trace_bind {m : Program μ η σ ε α} {k : α → Program μ η σ ε γ} {a : α}
    (ho : (m.run s env).outcome = .returned a) :
    ((m >>= k).run s env).trace = (m.run s env).trace ++
      ((k a).run (m.run s env).state (env.drop (m.run s env).trace.length)).trace := by
  rw [run_bind, Execution.andThen_returned ho]

theorem trace_bind_left (m : Program μ η σ ε α) (k : α → Program μ η σ ε γ) (s : σ)
    (env : List μ) : (m.run s env).trace <+: ((m >>= k).run s env).trace := by
  rw [run_bind]
  cases ho : (m.run s env).outcome with
  | returned a =>
    rw [Execution.andThen_returned ho]
    exact List.prefix_append _ _
  | raised e =>
    simp only [Execution.andThen, ho]
    exact List.prefix_rfl
  | pending =>
    simp only [Execution.andThen, ho]
    exact List.prefix_rfl

theorem scopeExit_trace (leave : σ → σ) (unwinds : ε → Bool) (m : Program μ η σ ε α) (s : σ)
    (env : List μ) : ((Program.scopeExit leave unwinds m).run s env).trace =
      (m.run s env).trace := by
  unfold Program.scopeExit
  dsimp only
  cases (m.run s env).outcome <;> rfl

theorem trace_ask {reply : μ → α} {event : α → η} {a : α}
    (ho : ((ask reply event : Program μ η σ ε α).run s env).outcome = .returned a) :
    ((ask reply event : Program μ η σ ε α).run s env).trace = [event a] := by
  cases env with
  | nil => cases ho
  | cons m env =>
    cases ho
    rfl

theorem state_ask {reply : μ → α} {event : α → η} :
    ((ask reply event : Program μ η σ ε α).run s env).state = s := by
  cases env <;> rfl

/-- A loop, up to results in `bad`, which the second run need not arrive at. -/
theorem Follows.loop (bad : α → Prop) (φ : γ → δ) {body : γ → Program μ η σ ε (γ ⊕ α)}
    {body' : δ → Program μ η τ ε (δ ⊕ β)}
    (h : ∀ c s s' env, C.state s s' →
      (∀ a, ((body c).run s env).outcome = .returned (.inr a) → ¬ bad a) →
      Follows C (Sum.map φ f) (body c) (body' (φ c)) s s' env)
    {c : γ} (hs : C.state s s')
    (hbad : ∀ a, ((Program.loop body c).run s env).outcome = .returned a → ¬ bad a) :
    Follows C f (Program.loop body c) (Program.loop body' (φ c)) s s' env := by
  have key : ∀ n c s s' env, C.state s s' →
      (∀ a, (passes body n c s env).outcome = .returned a → ¬ bad a) →
      (passes body n c s env).Coupled C f (passes body' n (φ c) s' (env.map C.answer)) := by
    intro n
    induction n with
    | zero => exact fun _ _ _ _ hs _ ↦ ⟨rfl, hs, rfl⟩
    | succ n ih =>
      intro c s s' env hs hbad
      have hbody := h c s s' env hs (fun a ho ↦ hbad a (by
        simp only [passes]
        rw [Execution.andThen_returned ho]))
      simp only [passes]
      refine Execution.Coupled.andThen hbody (fun r ho ↦ ?_)
      cases r with
      | inl c' =>
        simp only [Sum.map_inl, hbody.trace, List.length_map, ← List.map_drop]
        refine ih c' _ _ _ hbody.state (fun a ha ↦ hbad a ?_)
        simp only [passes]
        rw [Execution.andThen_returned ho]
        exact ha
      | inr a => exact ⟨rfl, hbody.state, rfl⟩
  have hpasses := key (env.length + 1) c s s' env hs hbad
  unfold Follows
  simp only [Program.loop, List.length_map]
  exact hpasses

theorem Follows.scopeExit {leave : σ → σ} {leave' : τ → τ} {unwinds : ε → Bool}
    {m : Program μ η σ ε α} {m' : Program μ η τ ε β} (h : Follows C f m m' s s' env)
    (hleave : ∀ t t', C.state t t' → C.state (leave t) (leave' t')) :
    Follows C f (Program.scopeExit leave unwinds m) (Program.scopeExit leave' unwinds m')
      s s' env := by
  obtain ⟨hout, hstate, htrace⟩ := h
  have hleft := hleave _ _ hstate
  unfold Follows
  cases ho : (m.run s env).outcome with
  | returned a =>
    rw [ho] at hout
    simp only [Program.scopeExit, ho, hout, Outcome.map]
    exact ⟨rfl, hleft, htrace⟩
  | raised e =>
    rw [ho] at hout
    simp only [Program.scopeExit, ho, hout, Outcome.map]
    refine ⟨rfl, ?_, htrace⟩
    cases unwinds e with
    | true => exact hleft
    | false => exact hstate
  | pending =>
    rw [ho] at hout
    simp only [Program.scopeExit, ho, hout, Outcome.map]
    exact ⟨by rw [hout, ho, Outcome.map], hstate, htrace⟩

end Program

end FlowctlGame.Interaction
