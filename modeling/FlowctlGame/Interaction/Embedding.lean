import FlowctlGame.Interaction.Taking

namespace FlowctlGame.Interaction

variable {μ μ' η η' σ τ ε ε' α β : Type}

namespace Outcome

def mapError (error : ε → ε') : Outcome ε α → Outcome ε' α
  | .returned a => .returned a
  | .raised e => .raised (error e)
  | .pending => .pending

def attempted : Outcome ε α → Outcome ε' (Except ε α)
  | .returned a => .returned (.ok a)
  | .raised e => .returned (.error e)
  | .pending => .pending

theorem mapError_pending {error : ε → ε'} {o : Outcome ε α} :
    o.mapError error = .pending ↔ o = .pending := by
  cases o <;> simp [mapError]

theorem attempted_pending {o : Outcome ε α} :
    (o.attempted : Outcome ε' (Except ε α)) = .pending ↔ o = .pending := by
  cases o <;> simp [attempted]

end Outcome

namespace Program

/-- A program among others: its answers are a part of theirs, its calls and errors some of
theirs. -/
def translate (answer : μ' → μ) (event : η → η') (error : ε → ε') (m : Program μ η σ ε α) :
    Program μ' η' σ ε' α where
  run s env :=
    let x := m.run s (env.map answer)
    ⟨x.outcome.mapError error, x.state, x.trace.map event⟩
  within s env := by
    simpa using m.within s (env.map answer)
  settled s env more h := by
    have hm : (m.run s (env.map answer)).outcome ≠ .pending :=
      fun hp ↦ h (Outcome.mapError_pending.mpr hp)
    simp only [List.map_append, m.settled _ _ _ hm]

/-- A program with a state of its own, which begins as `t` and is lost at the end. -/
def confined (t : τ) (m : Program μ η τ ε α) : Program μ η σ ε α where
  run s env :=
    let x := m.run t env
    ⟨x.outcome, s, x.trace⟩
  within _ env := m.within t env
  settled _ env more h := by
    simp only [m.settled t env more h]

/-- A program whose errors are caught. -/
def attempt (m : Program μ η σ ε α) : Program μ η σ ε' (Except ε α) where
  run s env :=
    let x := m.run s env
    ⟨x.outcome.attempted, x.state, x.trace⟩
  within s env := m.within s env
  settled s env more h := by
    have hm : (m.run s env).outcome ≠ .pending :=
      fun hp ↦ h (Outcome.attempted_pending.mpr hp)
    simp only [m.settled s env more hm]

section Rules

variable {m : Program μ η σ ε α} {s : σ}

theorem Ensures.translate {answer : μ' → μ} {event : η → η'} {error : ε → ε'}
    {Φ : List η' → Outcome ε' α → σ → Prop}
    (h : m.Ensures s (fun tr o s' ↦ Φ (tr.map event) (o.mapError error) s')) :
    (m.translate answer event error).Ensures s Φ := by
  rw [ensures_iff_run] at h ⊢
  exact fun env ↦ h (env.map answer)

theorem Ensures.confined {t : τ} {m : Program μ η τ ε α} {Φ : List η → Outcome ε α → σ → Prop}
    (h : m.Ensures t (fun tr o _ ↦ Φ tr o s)) : (m.confined t).Ensures s Φ := by
  rw [ensures_iff_run] at h ⊢
  exact h

theorem Ensures.attempt {Φ : List η → Outcome ε' (Except ε α) → σ → Prop}
    (h : m.Ensures s (fun tr o s' ↦ Φ tr o.attempted s')) : (m.attempt).Ensures s Φ := by
  rw [ensures_iff_run] at h ⊢
  exact h

end Rules

/-- A program that does not return before it has made a call. -/
def Calling (m : Program μ η σ ε α) : Prop :=
  ∀ s, m.Ensures s (fun tr o _ ↦ ∀ a, o = .returned a → tr ≠ [])

section Calling

variable {m : Program μ η σ ε α}

theorem calling_raise (e : ε) : (raise e : Program μ η σ ε α).Calling :=
  fun _ ↦ ensures_raise.mpr (fun _ h ↦ by cases h)

theorem calling_ask_bind {reply : μ → α} {event : α → η} {f : α → Program μ η σ ε β} :
    (ask reply event >>= f).Calling := by
  refine fun s ↦ ensures_ask_bind.mpr ⟨fun _ h ↦ ?_, fun _ _ _ _ _ _ _ h ↦ ?_⟩
  · cases h
  · cases h

theorem calling_get_bind {f : σ → Program μ η σ ε β} (hf : ∀ s, (f s).Calling) :
    (get >>= f).Calling :=
  fun s ↦ ensures_get_bind.mpr (hf s s)

theorem Calling.bind {f : α → Program μ η σ ε β} (h : m.Calling) : (m >>= f).Calling := by
  refine fun s ↦ (h s).sequence (fun tr a s' hm ↦ ?_) (fun _ _ _ _ _ h ↦ ?_) (fun _ _ _ _ h ↦ ?_)
  · exact fun tr' o s'' _ b _ hnil ↦ hm a rfl (List.append_eq_nil_iff.mp hnil).1
  · cases h
  · cases h

theorem Calling.loop {body : β → Program μ η σ ε (β ⊕ α)} (h : ∀ b, (body b).Calling) (b : β) :
    (Program.loop body b).Calling := by
  refine fun s ↦ Ensures.loop (fun _ _ _ ↦ True) trivial (fun _ _ _ _ _ h ↦ by cases h) ?_
  intro b tr s _
  refine (h b s).mono (fun tr' o _ hm ↦ ?_)
  rcases o with (b' | a) | e | _
  · trivial
  · exact fun _ _ hnil ↦ hm _ rfl (List.append_eq_nil_iff.mp hnil).2
  · exact fun _ h ↦ by cases h
  · exact fun _ h ↦ by cases h

end Calling

/-- A program that records exactly the answers it takes. -/
structure Transcribed (m : Program μ μ σ ε α) (s : σ) (env : List μ) : Prop where
  taken : (m.run s env).trace <+: env
  whole : (m.run s env).outcome = .pending → (m.run s env).trace = env
  takes : (m.run s env).outcome ≠ .pending →
    m.Takes s (m.run s env).trace (m.run s env).outcome (m.run s env).state

def Transcribes (m : Program μ μ σ ε α) : Prop := ∀ s env, m.Transcribed s env

section Transcribes

variable {m : Program μ μ σ ε α} {s s' : σ} {tr : List μ}

theorem Transcribes.executes (h : m.Transcribes) {o : Outcome ε α}
    (hx : m.Executes s tr o s') (ho : o ≠ .pending) : m.Takes s tr o s' := by
  obtain ⟨env, hrun⟩ := hx
  have htakes := (h s env).takes
  rw [hrun] at htakes
  exact htakes ho

theorem Transcribes.pending (h : m.Transcribes) (hx : m.Executes s tr .pending s') :
    (m.run s tr).outcome = .pending := by
  obtain ⟨env, hrun⟩ := hx
  have hwhole := (h s env).whole
  rw [hrun] at hwhole
  obtain rfl : tr = env := hwhole rfl
  rw [hrun]

theorem drop_of_append {l rest env : List μ} (h : l ++ rest = env) :
    env.drop l.length = rest := by
  rw [← h, List.drop_left]

theorem transcribed_silent {e : Execution μ σ ε α} {env : List μ}
    (hrun : m.run s env = e) (htrace : e.trace = [])
    (htakes : m.Takes s [] e.outcome e.state) : m.Transcribed s env where
  taken := by
    rw [hrun, htrace]
    exact List.nil_prefix
  whole := fun h ↦ absurd (hrun ▸ h) htakes.settled
  takes := fun _ ↦ by rwa [hrun, htrace]

theorem transcribes_pure (a : α) : (Pure.pure a : Program μ μ σ ε α).Transcribes :=
  fun s env ↦ transcribed_silent (run_pure a s env) rfl (takes_pure a s)

theorem transcribes_raise (e : ε) : (raise e : Program μ μ σ ε α).Transcribes :=
  fun s env ↦ transcribed_silent (run_raise e s env) rfl (takes_raise e s)

theorem transcribes_modify (g : σ → σ) : (modify g : Program μ μ σ ε Unit).Transcribes :=
  fun s env ↦ transcribed_silent (run_modify g s env) rfl (takes_modify g s)

theorem transcribes_ask : (ask id id : Program μ μ σ ε μ).Transcribes := by
  intro s env
  cases env with
  | nil => exact ⟨List.nil_prefix, fun _ ↦ rfl, fun h ↦ absurd rfl h⟩
  | cons answer env =>
    refine ⟨List.prefix_append [answer] env, fun h ↦ ?_, fun _ ↦ takes_ask id id answer s⟩
    cases h

theorem Transcribes.bind {f : α → Program μ μ σ ε β} (h : m.Transcribes)
    (hf : ∀ a, (f a).Transcribes) : (m >>= f).Transcribes := by
  intro s env
  obtain ⟨⟨rest, hrest⟩, hwhole, htakes⟩ := h s env
  have hrun := run_bind m f s env
  cases ho : (m.run s env).outcome with
  | returned a =>
    rw [Execution.andThen_returned ho, drop_of_append hrest] at hrun
    obtain ⟨⟨more, hmore⟩, hwhole', htakes'⟩ := hf a (m.run s env).state rest
    have hm : m.Takes s (m.run s env).trace (.returned a) (m.run s env).state :=
      ho ▸ htakes (by simp [ho])
    refine ⟨⟨more, ?_⟩, fun hp ↦ ?_, fun hp ↦ ?_⟩
    · rw [hrun, List.append_assoc, hmore, hrest]
    · rw [hrun] at hp ⊢
      rw [hwhole' hp, hrest]
    · rw [hrun] at hp ⊢
      exact hm.bind (htakes' hp)
  | raised e =>
    simp only [Execution.andThen, ho] at hrun
    have hm : m.Takes s (m.run s env).trace (.raised e) (m.run s env).state :=
      ho ▸ htakes (by simp [ho])
    refine ⟨⟨rest, by rw [hrun, hrest]⟩, fun hp ↦ by simp [hrun] at hp, fun _ ↦ ?_⟩
    rw [hrun]
    exact hm.bind_raised
  | pending =>
    simp only [Execution.andThen, ho] at hrun
    refine ⟨⟨rest, by rw [hrun, hrest]⟩, fun _ ↦ ?_, fun hp ↦ by simp [hrun] at hp⟩
    rw [hrun, hwhole ho]

theorem transcribes_get_bind {f : σ → Program μ μ σ ε β} (hf : ∀ s, (f s).Transcribes) :
    (get >>= f).Transcribes := by
  intro s env
  have hrun : (get >>= f).run s env = (f s).run s env := by
    simp [run_bind, run_get, Execution.andThen]
  obtain ⟨htaken, hwhole, htakes⟩ := hf s s env
  rw [← hrun] at htaken hwhole htakes
  exact ⟨htaken, hwhole, fun hp ↦ takes_get_bind (hrun ▸ htakes hp)⟩

theorem Transcribes.loop {body : β → Program μ μ σ ε (β ⊕ α)} (h : ∀ b, (body b).Transcribes)
    (hnext : ∀ b s, (body b).Ensures s (fun tr o _ ↦ ∀ b', o = .returned (.inl b') → tr ≠ []))
    (b : β) : (Program.loop body b).Transcribes := by
  suffices key : ∀ n b s env, env.length < n → (passes body n b s env).trace <+: env ∧
      ((passes body n b s env).outcome = .pending → (passes body n b s env).trace = env) ∧
      ((passes body n b s env).outcome ≠ .pending →
        (Program.loop body b).Takes s (passes body n b s env).trace
          (passes body n b s env).outcome (passes body n b s env).state) by
    intro s env
    obtain ⟨htaken, hwhole, htakes⟩ := key (env.length + 1) b s env (Nat.lt_succ_self _)
    exact ⟨htaken, hwhole, htakes⟩
  intro n
  induction n with
  | zero => exact fun _ _ _ h ↦ absurd h (Nat.not_lt_zero _)
  | succ n ih =>
    intro b s env hn
    obtain ⟨⟨rest, hrest⟩, hwhole, htakes⟩ := h b s env
    have hne := ensures_iff_run.mp (hnext b s) env
    simp only [passes]
    cases ho : ((body b).run s env).outcome with
    | returned r =>
      rw [Execution.andThen_returned ho]
      have hb : (body b).Takes s ((body b).run s env).trace (.returned r)
          ((body b).run s env).state := ho ▸ htakes (by simp [ho])
      cases r with
      | inl b' =>
        have hused : ((body b).run s env).trace ≠ [] := hne b' ho
        have hlt : rest.length < n := by
          have hpos := List.length_pos_of_ne_nil hused
          have hlen := congrArg List.length hrest
          rw [List.length_append] at hlen
          omega
        obtain ⟨⟨more, hmore⟩, hwhole', htakes'⟩ := ih b' ((body b).run s env).state rest hlt
        simp only [drop_of_append hrest]
        refine ⟨⟨more, ?_⟩, fun hp ↦ ?_, fun hp ↦ ?_⟩
        · rw [List.append_assoc, hmore, hrest]
        · rw [hwhole' hp, hrest]
        · exact hb.loop_next hused (htakes' hp)
      | inr a =>
        simp only [List.append_nil]
        exact ⟨⟨rest, hrest⟩, (fun hp ↦ by cases hp), fun _ ↦ hb.loop_last⟩
    | raised e =>
      have hb : (body b).Takes s ((body b).run s env).trace (.raised e)
          ((body b).run s env).state := ho ▸ htakes (by simp [ho])
      simp only [Execution.andThen, ho]
      exact ⟨⟨rest, hrest⟩, (fun hp ↦ by cases hp), fun _ ↦ hb.loop_raised⟩
    | pending =>
      simp only [Execution.andThen, ho]
      exact ⟨⟨rest, hrest⟩, fun _ ↦ hwhole ho, fun hp ↦ absurd rfl hp⟩

end Transcribes

theorem Takes.shorter {m : Program μ η σ ε α} {s s' : σ} {used line more more' : List μ}
    {o : Outcome ε α} (h : m.Takes s line o s') (hp : (m.run s used).outcome = .pending)
    (heq : used ++ more = line ++ more') : used <+: line ∧ used ≠ line := by
  refine ⟨?_, fun hsame ↦ h.settled (h.outcome.symm.trans (hsame ▸ hp))⟩
  rcases List.prefix_or_prefix_of_prefix (heq ▸ List.prefix_append used more)
    (List.prefix_append line more') with hshort | ⟨rest, hrest⟩
  · exact hshort
  · exact absurd ((h.outcome_append hrest.symm).symm.trans hp) h.settled

end Program

end FlowctlGame.Interaction
