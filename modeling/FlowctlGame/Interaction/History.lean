import FlowctlGame.Interaction.Reasoning

namespace FlowctlGame.Interaction

variable {μ η σ ε α β : Type}

/-- Every call of a trace satisfies `P`, given the calls before it. -/
def Throughout (P : List η → η → Prop) : List η → List η → Prop
  | _, [] => True
  | past, e :: tr => P past e ∧ Throughout P (past ++ [e]) tr

section Throughout

variable {P : List η → η → Prop}

theorem throughout_append (past tr tr' : List η) :
    Throughout P past (tr ++ tr') ↔ Throughout P past tr ∧ Throughout P (past ++ tr) tr' := by
  induction tr generalizing past with
  | nil => simp [Throughout]
  | cons e tr ih => simp [Throughout, ih, and_assoc]

theorem throughout_singleton (past : List η) (e : η) : Throughout P past [e] ↔ P past e := by
  simp [Throughout]

theorem Throughout.mono {P' : List η → η → Prop} (hP : ∀ past e, P past e → P' past e)
    {past tr : List η} (h : Throughout P past tr) : Throughout P' past tr := by
  induction tr generalizing past with
  | nil => trivial
  | cons e tr ih => exact ⟨hP past e h.1, ih h.2⟩

theorem Throughout.at {past before after : List η} {e : η}
    (h : Throughout P past (before ++ e :: after)) : P (past ++ before) e :=
  ((throughout_append past before (e :: after)).mp h).2.1

theorem throughout_iff {past tr : List η} : Throughout P past tr ↔
    ∀ before e after, tr = before ++ e :: after → P (past ++ before) e := by
  constructor
  · rintro h before e after rfl
    exact h.at
  · intro h
    induction tr generalizing past with
    | nil => trivial
    | cons e tr ih =>
      refine ⟨?_, ih (fun before e' after heq ↦ ?_)⟩
      · simpa using h [] e tr rfl
      · simpa using h (e :: before) e' after (by rw [heq, List.cons_append])

theorem throughout_const {P : η → Prop} {past tr : List η} :
    Throughout (fun _ ↦ P) past tr ↔ ∀ e ∈ tr, P e := by
  induction tr generalizing past with
  | nil => simp [Throughout]
  | cons e tr ih => simp [Throughout, ih]

end Throughout

/-- A rely and a guarantee: what the answers of the environment are like after each history,
what the calls of the program are, and an invariant of history and state. -/
structure Regime (η σ ε : Type) where
  rely : List η → η → Prop
  guarantee : List η → η → Prop
  invariant : List η → σ → Prop
  error : ε → Prop

namespace Program

/-- Where the environment keeps to `R`, so does `m` from the state `s` and the history `past`
on, and it returns with `Q`. -/
def Keeps (m : Program μ η σ ε α) (R : Regime η σ ε) (past : List η) (s : σ)
    (Q : α → List η → σ → Prop) : Prop :=
  m.Ensures s (fun tr o s' ↦ Throughout R.rely past tr →
    Throughout R.guarantee past tr ∧ R.invariant (past ++ tr) s' ∧
      match o with
      | .returned a => Q a (past ++ tr) s'
      | .raised e => R.error e
      | .pending => True)

variable {R : Regime η σ ε} {past : List η} {s : σ}

theorem keeps_pure {a : α} {Q : α → List η → σ → Prop} (hI : R.invariant past s)
    (h : Q a past s) : (Pure.pure a : Program μ η σ ε α).Keeps R past s Q := by
  refine ensures_pure.mpr (fun _ ↦ ⟨trivial, ?_⟩)
  rw [List.append_nil]
  exact ⟨hI, h⟩

theorem keeps_raise {e : ε} {Q : α → List η → σ → Prop} (hI : R.invariant past s)
    (h : R.error e) : (raise e : Program μ η σ ε α).Keeps R past s Q := by
  refine ensures_raise.mpr (fun _ ↦ ⟨trivial, ?_⟩)
  rw [List.append_nil]
  exact ⟨hI, h⟩

theorem keeps_modify {g : σ → σ} {Q : Unit → List η → σ → Prop} (hI : R.invariant past (g s))
    (h : Q () past (g s)) : (modify g : Program μ η σ ε Unit).Keeps R past s Q := by
  refine ensures_modify.mpr (fun _ ↦ ⟨trivial, ?_⟩)
  rw [List.append_nil]
  exact ⟨hI, h⟩

theorem keeps_get_bind {f : σ → Program μ η σ ε β} {Q : β → List η → σ → Prop}
    (h : (f s).Keeps R past s Q) : (get >>= f).Keeps R past s Q :=
  ensures_get_bind.mpr h

theorem keeps_modify_bind {g : σ → σ} {f : Unit → Program μ η σ ε β}
    {Q : β → List η → σ → Prop} (h : (f ()).Keeps R past (g s) Q) :
    (modify g >>= f).Keeps R past s Q :=
  ensures_modify_bind.mpr h

theorem Keeps.mono {m : Program μ η σ ε α} {Q Q' : α → List η → σ → Prop}
    (h : m.Keeps R past s Q)
    (hQ : ∀ a past' s', R.invariant past' s' → Q a past' s' → Q' a past' s') :
    m.Keeps R past s Q' := by
  refine Ensures.mono h (fun tr o s' hm hrely ↦ ?_)
  obtain ⟨hguarantee, hI, ho⟩ := hm hrely
  refine ⟨hguarantee, hI, ?_⟩
  cases o with
  | returned a => exact hQ a _ _ hI ho
  | raised e => exact ho
  | pending => trivial

theorem Keeps.bind {m : Program μ η σ ε α} {f : α → Program μ η σ ε β}
    {Q : α → List η → σ → Prop} {Q' : β → List η → σ → Prop} (h : m.Keeps R past s Q)
    (hf : ∀ a past' s', R.invariant past' s' → Q a past' s' → (f a).Keeps R past' s' Q') :
    (m >>= f).Keeps R past s Q' := by
  refine Ensures.sequence h ?_ (fun _ _ _ hm ↦ hm) (fun _ _ hm ↦ hm)
  intro tr a s' hm tr' o s'' hrun hrely
  obtain ⟨hrely, hrely'⟩ := (throughout_append past tr tr').mp hrely
  obtain ⟨hguarantee, hI, hQ⟩ := hm hrely
  have hrest := hf a (past ++ tr) s' hI hQ _ _ _ hrun hrely'
  rw [throughout_append, ← List.append_assoc]
  exact ⟨⟨hguarantee, hrest.1⟩, hrest.2⟩

theorem keeps_ask {reply : μ → α} {event : α → η} {Q : α → List η → σ → Prop}
    (hI : R.invariant past s)
    (h : ∀ a, R.rely past (event a) → R.guarantee past (event a) ∧
      R.invariant (past ++ [event a]) s ∧ Q a (past ++ [event a]) s) :
    (ask reply event : Program μ η σ ε α).Keeps R past s Q := by
  refine ensures_ask.mpr ⟨fun _ ↦ ⟨trivial, ?_⟩, fun m hrely ↦ ?_⟩
  · rw [List.append_nil]
    exact ⟨hI, trivial⟩
  · rw [throughout_singleton] at hrely ⊢
    exact h (reply m) hrely

theorem keeps_ask_bind {reply : μ → α} {event : α → η} {f : α → Program μ η σ ε β}
    {Q : β → List η → σ → Prop} (hI : R.invariant past s)
    (h : ∀ a, R.rely past (event a) → R.guarantee past (event a) ∧
      (f a).Keeps R (past ++ [event a]) s Q) : (ask reply event >>= f).Keeps R past s Q := by
  refine ensures_ask_bind.mpr ⟨fun _ ↦ ⟨trivial, ?_⟩, fun m tr o s' hrun hrely ↦ ?_⟩
  · rw [List.append_nil]
    exact ⟨hI, trivial⟩
  · obtain ⟨hguarantee, hf⟩ := h (reply m) hrely.1
    have hrest := hf tr o s' hrun hrely.2
    rw [List.append_cons]
    exact ⟨⟨hguarantee, hrest.1⟩, hrest.2⟩

theorem Keeps.scopeExit {leave : σ → σ} {unwinds : ε → Bool} {m : Program μ η σ ε α}
    {Q : α → List η → σ → Prop}
    (hleave : ∀ past s, R.invariant past s → R.invariant past (leave s))
    (h : m.Keeps R past s (fun a past' s' ↦ Q a past' (leave s'))) :
    (Program.scopeExit leave unwinds m).Keeps R past s Q := by
  refine Ensures.scopeExit (Ensures.mono h (fun tr o s' hm ↦ ?_))
  cases o with
  | returned a =>
    intro hrely
    obtain ⟨hguarantee, hI, hQ⟩ := hm hrely
    exact ⟨hguarantee, hleave _ _ hI, hQ⟩
  | raised e =>
    intro hrely
    obtain ⟨hguarantee, hI, herror⟩ := hm hrely
    refine ⟨hguarantee, ?_, herror⟩
    cases unwinds e with
    | true => exact hleave _ _ hI
    | false => exact hI
  | pending => exact hm

/-- A regime may rely on less, and ask less of the program. -/
theorem Keeps.weaken {m : Program μ η σ ε α} {R' : Regime η σ ε} {Q : α → List η → σ → Prop}
    (h : m.Keeps R past s Q) (hrely : ∀ past e, R'.rely past e → R.rely past e)
    (hguarantee : ∀ past e, R.guarantee past e → R'.guarantee past e)
    (hI : ∀ past s, R.invariant past s → R'.invariant past s)
    (herror : ∀ e, R.error e → R'.error e) : m.Keeps R' past s Q := by
  refine Ensures.mono h (fun tr o s' hm hx ↦ ?_)
  obtain ⟨hkept, hinv, ho⟩ := hm (hx.mono hrely)
  refine ⟨hkept.mono hguarantee, hI _ _ hinv, ?_⟩
  cases o with
  | returned a => exact ho
  | raised e => exact herror e ho
  | pending => trivial

theorem Keeps.loop {body : β → Program μ η σ ε (β ⊕ α)} (J : β → List η → σ → Prop)
    {Q : α → List η → σ → Prop} {b : β} (hI : R.invariant past s) (h₀ : J b past s)
    (hbody : ∀ b past s, R.invariant past s → J b past s →
      (body b).Keeps R past s (fun r past' s' ↦
        match r with
        | .inl b' => J b' past' s'
        | .inr a => Q a past' s')) : (Program.loop body b).Keeps R past s Q := by
  refine Ensures.loop (fun b tr s ↦ Throughout R.rely past tr →
    Throughout R.guarantee past tr ∧ R.invariant (past ++ tr) s ∧ J b (past ++ tr) s) ?_ ?_ ?_
  · intro _
    rw [List.append_nil]
    exact ⟨trivial, hI, h₀⟩
  · intro b tr s hJ hrely
    obtain ⟨hguarantee, hI, -⟩ := hJ hrely
    exact ⟨hguarantee, hI, trivial⟩
  · intro b tr s hJ tr' o s' hrun
    -- what the pass comes to, whichever way it is left
    have hpass : Throughout R.rely past (tr ++ tr') →
        Throughout R.guarantee past (tr ++ tr') ∧ R.invariant (past ++ (tr ++ tr')) s' ∧
          match o with
          | .returned (.inl b') => J b' (past ++ (tr ++ tr')) s'
          | .returned (.inr a) => Q a (past ++ (tr ++ tr')) s'
          | .raised e => R.error e
          | .pending => True := by
      intro hrely
      obtain ⟨hrely, hrely'⟩ := (throughout_append past tr tr').mp hrely
      obtain ⟨hguarantee, hI, hJ⟩ := hJ hrely
      obtain ⟨hguarantee', hI', ho⟩ := hbody b _ s hI hJ _ _ _ hrun hrely'
      rw [throughout_append, ← List.append_assoc]
      refine ⟨⟨hguarantee, hguarantee'⟩, hI', ?_⟩
      rcases o with (b' | a) | e | _ <;> exact ho
    rcases o with (b' | a) | e | _ <;> exact hpass

end Program

end FlowctlGame.Interaction
