import FlowctlGame.Interaction.Program

namespace FlowctlGame.Interaction.Program

variable {μ η σ τ ε α β : Type}

/-- Under some answers of the environment, `m` goes from `s` to `s'` along the trace `tr`. -/
def Executes (m : Program μ η σ ε α) (s : σ) (tr : List η) (o : Outcome ε α) (s' : σ) : Prop :=
  ∃ env, m.run s env = ⟨o, s', tr⟩

/-- `Φ` holds of every execution of `m` from `s`, unfinished ones included. -/
def Ensures (m : Program μ η σ ε α) (s : σ) (Φ : List η → Outcome ε α → σ → Prop) : Prop :=
  ∀ tr o s', m.Executes s tr o s' → Φ tr o s'

theorem executes_run (m : Program μ η σ ε α) (s : σ) (env : List μ) :
    m.Executes s (m.run s env).trace (m.run s env).outcome (m.run s env).state :=
  ⟨env, rfl⟩

theorem ensures_iff_run {m : Program μ η σ ε α} {s : σ}
    {Φ : List η → Outcome ε α → σ → Prop} :
    m.Ensures s Φ ↔
      ∀ env, Φ (m.run s env).trace (m.run s env).outcome (m.run s env).state := by
  constructor
  · intro h env
    exact h _ _ _ (m.executes_run s env)
  · intro h tr o s' hx
    obtain ⟨env, he⟩ := hx
    have := h env
    rwa [he] at this

theorem Ensures.mono {m : Program μ η σ ε α} {s : σ} {Φ Ψ : List η → Outcome ε α → σ → Prop}
    (h : m.Ensures s Φ) (hΦ : ∀ tr o s', Φ tr o s' → Ψ tr o s') : m.Ensures s Ψ :=
  fun tr o s' he ↦ hΦ tr o s' (h tr o s' he)

/-- What `m` must establish for `m >>= f` to establish `Φ`. -/
def Sequel (f : α → Program μ η σ ε β) (Φ : List η → Outcome ε β → σ → Prop) :
    List η → Outcome ε α → σ → Prop
  | tr, .returned a, s => (f a).Ensures s (fun tr' ↦ Φ (tr ++ tr'))
  | tr, .raised e, s => Φ tr (.raised e) s
  | tr, .pending, s => Φ tr .pending s

theorem Ensures.bind {m : Program μ η σ ε α} {f : α → Program μ η σ ε β} {s : σ}
    {Φ : List η → Outcome ε β → σ → Prop} (h : m.Ensures s (Sequel f Φ)) :
    (m >>= f).Ensures s Φ := by
  rw [ensures_iff_run] at h ⊢
  intro env
  have hm := h env
  rw [run_bind]
  unfold Execution.andThen
  cases ho : (m.run s env).outcome with
  | returned a =>
    rw [ho] at hm
    exact hm _ _ _ (executes_run _ _ _)
  | raised e => simpa only [ho, Sequel] using hm
  | pending => simpa only [ho, Sequel] using hm

theorem Ensures.sequence {m : Program μ η σ ε α} {f : α → Program μ η σ ε β} {s : σ}
    {Ψ : List η → Outcome ε α → σ → Prop} {Φ : List η → Outcome ε β → σ → Prop}
    (h : m.Ensures s Ψ)
    (hreturned : ∀ tr a s', Ψ tr (.returned a) s' →
      (f a).Ensures s' (fun tr' ↦ Φ (tr ++ tr')))
    (hraised : ∀ tr e s', Ψ tr (.raised e) s' → Φ tr (.raised e) s')
    (hpending : ∀ tr s', Ψ tr .pending s' → Φ tr .pending s') : (m >>= f).Ensures s Φ := by
  refine .bind (fun tr o s' he ↦ ?_)
  have hΨ := h tr o s' he
  cases o with
  | returned a => exact hreturned tr a s' hΨ
  | raised e => exact hraised tr e s' hΨ
  | pending => exact hpending tr s' hΨ

@[simp]
theorem ensures_pure {a : α} {s : σ} {Φ : List η → Outcome ε α → σ → Prop} :
    (Pure.pure a : Program μ η σ ε α).Ensures s Φ ↔ Φ [] (.returned a) s := by
  simp [ensures_iff_run, run_pure]

@[simp]
theorem ensures_raise {e : ε} {s : σ} {Φ : List η → Outcome ε α → σ → Prop} :
    (raise e : Program μ η σ ε α).Ensures s Φ ↔ Φ [] (.raised e) s := by
  simp [ensures_iff_run, run_raise]

@[simp]
theorem ensures_raise_bind {e : ε} {f : α → Program μ η σ ε β} {s : σ}
    {Φ : List η → Outcome ε β → σ → Prop} :
    (raise e >>= f).Ensures s Φ ↔ Φ [] (.raised e) s := by
  rw [raise_bind, ensures_raise]

@[simp]
theorem ensures_modify {g : σ → σ} {s : σ} {Φ : List η → Outcome ε Unit → σ → Prop} :
    (modify g : Program μ η σ ε Unit).Ensures s Φ ↔ Φ [] (.returned ()) (g s) := by
  simp [ensures_iff_run, run_modify]

@[simp]
theorem ensures_get_bind {f : σ → Program μ η σ ε β} {s : σ}
    {Φ : List η → Outcome ε β → σ → Prop} : (get >>= f).Ensures s Φ ↔ (f s).Ensures s Φ := by
  simp [ensures_iff_run, run_bind, run_get, Execution.andThen]

@[simp]
theorem ensures_modify_bind {g : σ → σ} {f : Unit → Program μ η σ ε β} {s : σ}
    {Φ : List η → Outcome ε β → σ → Prop} :
    (modify g >>= f).Ensures s Φ ↔ (f ()).Ensures (g s) Φ := by
  simp [ensures_iff_run, run_bind, run_modify, Execution.andThen]

@[simp]
theorem ensures_ask {reply : μ → α} {event : α → η} {s : σ}
    {Φ : List η → Outcome ε α → σ → Prop} :
    (ask reply event : Program μ η σ ε α).Ensures s Φ ↔
      Φ [] .pending s ∧ ∀ m, Φ [event (reply m)] (.returned (reply m)) s := by
  rw [ensures_iff_run]
  constructor
  · exact fun h ↦ ⟨h [], fun m ↦ h [m]⟩
  · intro hx env
    obtain ⟨h, hm⟩ := hx
    cases env with
    | nil => exact h
    | cons m env => exact hm m

@[simp]
theorem ensures_ask_bind {reply : μ → α} {event : α → η} {f : α → Program μ η σ ε β} {s : σ}
    {Φ : List η → Outcome ε β → σ → Prop} :
    (ask reply event >>= f).Ensures s Φ ↔
      Φ [] .pending s ∧
        ∀ m, (f (reply m)).Ensures s (fun tr ↦ Φ (event (reply m) :: tr)) := by
  constructor
  · rw [ensures_iff_run]
    refine fun h ↦ ⟨h [], fun m ↦ ?_⟩
    rw [ensures_iff_run]
    exact fun env ↦ h (m :: env)
  · intro hx
    obtain ⟨h, hm⟩ := hx
    exact .bind (ensures_ask.mpr ⟨h, hm⟩)

/-- The invariant `I` of a loop is about the value carried, the trace since the loop
was entered and the state. -/
theorem Ensures.loop {body : β → Program μ η σ ε (β ⊕ α)} (I : β → List η → σ → Prop)
    {Φ : List η → Outcome ε α → σ → Prop} {b : β} {s : σ} (h₀ : I b [] s)
    (hpending : ∀ b tr s, I b tr s → Φ tr .pending s)
    (hbody : ∀ b tr s, I b tr s → (body b).Ensures s (fun tr' o s' ↦
      match o with
      | .returned (.inl b') => I b' (tr ++ tr') s'
      | .returned (.inr a) => Φ (tr ++ tr') (.returned a) s'
      | .raised e => Φ (tr ++ tr') (.raised e) s'
      | .pending => Φ (tr ++ tr') .pending s')) :
    (Program.loop body b).Ensures s Φ := by
  suffices key : ∀ n b tr s env, I b tr s →
      Φ (tr ++ (passes body n b s env).trace) (passes body n b s env).outcome
        (passes body n b s env).state by
    rw [ensures_iff_run]
    exact fun env ↦ key _ b [] s env h₀
  intro n
  induction n with
  | zero =>
    intro b tr s env hI
    simpa [passes] using hpending b tr s hI
  | succ n ih =>
    intro b tr s env hI
    have hb := ensures_iff_run.mp (hbody b tr s hI) env
    unfold passes Execution.andThen
    cases ho : ((body b).run s env).outcome with
    | returned r =>
      rw [ho] at hb
      cases r with
      | inl b' => simpa only [List.append_assoc] using ih b' _ _ _ hb
      | inr a => simpa using hb
    | raised e => simpa only [ho] using hb
    | pending => simpa only [ho] using hb

theorem Ensures.focus {look : σ → Option τ} {put : τ → σ → σ} {absent : ε}
    {m : Program μ η τ ε α} {s : σ} {Φ : List η → Outcome ε α → σ → Prop}
    (h : ∀ t, look s = some t → m.Ensures t (fun tr o t' ↦ Φ tr o (put t' s)))
    (habsent : look s = none → Φ [] (.raised absent) s) :
    (Program.focus look put absent m).Ensures s Φ := by
  rw [ensures_iff_run]
  intro env
  cases hs : look s with
  | none => simpa only [run_focus_absent hs] using habsent hs
  | some t => simpa only [run_focus hs] using ensures_iff_run.mp (h t hs) env

theorem Ensures.scopeExit {leave : σ → σ} {unwinds : ε → Bool} {m : Program μ η σ ε α} {s : σ}
    {Φ : List η → Outcome ε α → σ → Prop}
    (h : m.Ensures s (fun tr o s' ↦
      match o with
      | .returned a => Φ tr (.returned a) (leave s')
      | .raised e => Φ tr (.raised e) (bif unwinds e then leave s' else s')
      | .pending => Φ tr .pending s')) :
    (Program.scopeExit leave unwinds m).Ensures s Φ := by
  rw [ensures_iff_run] at h ⊢
  intro env
  have hm := h env
  unfold Program.scopeExit
  cases ho : (m.run s env).outcome with
  | returned a => simpa only [ho] using hm
  | raised e => simpa only [ho] using hm
  | pending => simpa only [ho] using hm

end FlowctlGame.Interaction.Program
