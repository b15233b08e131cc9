import Mathlib.Data.List.Basic

namespace FlowctlGame.Interaction

/-- How an execution stands after the answers it was given: `pending` means that
one more answer is needed. -/
inductive Outcome (ε α : Type) where
  | returned (a : α)
  | raised (e : ε)
  | pending
deriving DecidableEq, Repr

instance Outcome.decidableReturned {ε α : Type} :
    (o : Outcome ε α) → Decidable (∃ a, o = .returned a)
  | .returned a => isTrue ⟨a, rfl⟩
  | .raised _ => isFalse nofun
  | .pending => isFalse nofun

structure Execution (η σ ε α : Type) where
  outcome : Outcome ε α
  state : σ
  trace : List η

/-- A program over a state `σ` that puts calls to an environment. The list given to
`run` holds the answers of type `μ`, one for each call, and the trace records the
calls together with what was answered. An execution that is not `pending` depends
only on the answers it has used. -/
structure Program (μ η σ ε α : Type) where
  run : σ → List μ → Execution η σ ε α
  within : ∀ s env, (run s env).trace.length ≤ env.length
  settled : ∀ s env more, (run s env).outcome ≠ .pending → run s (env ++ more) = run s env

variable {μ η σ τ ε α β γ : Type}

@[ext]
theorem Program.ext {m m' : Program μ η σ ε α} (h : ∀ s env, m.run s env = m'.run s env) :
    m = m' := by
  cases m
  cases m'
  congr
  funext s env
  exact h s env

namespace Execution

def andThen (x : Execution η σ ε α) (f : α → σ → Execution η σ ε β) : Execution η σ ε β :=
  match x.outcome with
  | .returned a => ⟨(f a x.state).outcome, (f a x.state).state, x.trace ++ (f a x.state).trace⟩
  | .raised e => ⟨.raised e, x.state, x.trace⟩
  | .pending => ⟨.pending, x.state, x.trace⟩

theorem andThen_returned {x : Execution η σ ε α} {a : α} (h : x.outcome = .returned a)
    (f : α → σ → Execution η σ ε β) :
    x.andThen f =
      ⟨(f a x.state).outcome, (f a x.state).state, x.trace ++ (f a x.state).trace⟩ := by
  simp only [andThen, h]

theorem andThen_length {x : Execution η σ ε α} {f : α → σ → Execution η σ ε β} {n : ℕ}
    (hx : x.trace.length ≤ n)
    (hf : ∀ a, (f a x.state).trace.length ≤ n - x.trace.length) :
    (x.andThen f).trace.length ≤ n := by
  unfold andThen
  cases x.outcome with
  | returned a =>
    have h := hf a
    simp only [List.length_append]
    omega
  | raised e => exact hx
  | pending => exact hx

theorem andThen_congr {x : Execution η σ ε α} {f g : α → σ → Execution η σ ε β}
    (h : ∀ a, x.outcome = .returned a → f a x.state = g a x.state) :
    x.andThen f = x.andThen g := by
  unfold andThen
  cases hx : x.outcome with
  | returned a => simp only [h a hx]
  | raised e => rfl
  | pending => rfl

theorem andThen_settled {x : Execution η σ ε α} {f : α → σ → Execution η σ ε β}
    (h : (x.andThen f).outcome ≠ .pending) :
    x.outcome ≠ .pending ∧
      ∀ a, x.outcome = .returned a → (f a x.state).outcome ≠ .pending := by
  unfold andThen at h
  cases hx : x.outcome with
  | returned a =>
    simp only [hx] at h
    refine ⟨by simp, fun b hb ↦ ?_⟩
    cases hb
    exact h
  | raised e => exact ⟨by simp, fun b hb ↦ by cases hb⟩
  | pending => simp [hx] at h

end Execution

namespace Program

protected def pure (a : α) : Program μ η σ ε α where
  run s _ := ⟨.returned a, s, []⟩
  within _ _ := Nat.zero_le _
  settled _ _ _ _ := rfl

protected def bind (m : Program μ η σ ε α) (f : α → Program μ η σ ε β) : Program μ η σ ε β where
  run s env := (m.run s env).andThen
    (fun a s' ↦ (f a).run s' (env.drop (m.run s env).trace.length))
  within s env := by
    apply Execution.andThen_length (m.within s env)
    intro a
    simpa only [List.length_drop] using
      (f a).within (m.run s env).state (env.drop (m.run s env).trace.length)
  settled s env more h := by
    obtain ⟨hm, hf⟩ := Execution.andThen_settled h
    rw [m.settled s env more hm]
    apply Execution.andThen_congr
    intro a ha
    rw [List.drop_append_of_le_length (m.within s env)]
    exact (f a).settled _ _ more (hf a ha)

instance : Monad (Program μ η σ ε) where
  pure := Program.pure
  bind := Program.bind

theorem run_pure (a : α) (s : σ) (env : List μ) :
    (Pure.pure a : Program μ η σ ε α).run s env = ⟨.returned a, s, []⟩ := rfl

theorem run_bind (m : Program μ η σ ε α) (f : α → Program μ η σ ε β) (s : σ) (env : List μ) :
    (m >>= f).run s env = (m.run s env).andThen
      (fun a s' ↦ (f a).run s' (env.drop (m.run s env).trace.length)) := rfl

protected theorem bind_assoc (m : Program μ η σ ε α) (f : α → Program μ η σ ε β)
    (g : β → Program μ η σ ε γ) : m >>= f >>= g = m >>= fun a ↦ f a >>= g := by
  ext s env
  simp only [run_bind]
  generalize hx : m.run s env = x
  unfold Execution.andThen
  cases hxo : x.outcome with
  | returned a =>
    simp only
    generalize hy : (f a).run x.state (env.drop x.trace.length) = y
    cases hyo : y.outcome with
    | returned b => simp [List.append_assoc, List.drop_drop]
    | raised e => rfl
    | pending => rfl
  | raised e => rfl
  | pending => rfl

protected theorem pure_bind (a : α) (f : α → Program μ η σ ε β) : (Pure.pure a) >>= f = f a := by
  ext s env
  rfl

protected theorem bind_pure (m : Program μ η σ ε α) : m >>= Pure.pure = m := by
  ext s env
  simp only [run_bind, run_pure]
  generalize m.run s env = x
  obtain ⟨o, s', tr⟩ := x
  cases o <;> simp [Execution.andThen]

instance : LawfulMonad (Program μ η σ ε) :=
  LawfulMonad.mk' _ Program.bind_pure Program.pure_bind Program.bind_assoc

def get : Program μ η σ ε σ where
  run s _ := ⟨.returned s, s, []⟩
  within _ _ := Nat.zero_le _
  settled _ _ _ _ := rfl

def modify (f : σ → σ) : Program μ η σ ε Unit where
  run s _ := ⟨.returned (), f s, []⟩
  within _ _ := Nat.zero_le _
  settled _ _ _ _ := rfl

def raise (e : ε) : Program μ η σ ε α where
  run s _ := ⟨.raised e, s, []⟩
  within _ _ := Nat.zero_le _
  settled _ _ _ _ := rfl

/-- One call: `reply` reads its result off the next answer, `event` records it. -/
def ask (reply : μ → α) (event : α → η) : Program μ η σ ε α where
  run
    | s, [] => ⟨.pending, s, []⟩
    | s, m :: _ => ⟨.returned (reply m), s, [event (reply m)]⟩
  within s env := by cases env <;> simp
  settled s env more h := by
    cases env with
    | nil => exact absurd rfl h
    | cons m env => rfl

/-- Run on a part of the state, raising `absent` where the state has no such part. -/
def focus (look : σ → Option τ) (put : τ → σ → σ) (absent : ε) (m : Program μ η τ ε α) :
    Program μ η σ ε α where
  run s env :=
    match look s with
    | none => ⟨.raised absent, s, []⟩
    | some t => ⟨(m.run t env).outcome, put (m.run t env).state s, (m.run t env).trace⟩
  within s env := by
    cases look s with
    | none => exact Nat.zero_le _
    | some t => exact m.within t env
  settled s env more h := by
    cases hs : look s with
    | none => rfl
    | some t =>
      simp only [hs] at h
      simp only [m.settled t env more h]

/-- Apply `leave` to the state when the program returns, or raises an error that
unwinds the scope. -/
def scopeExit (leave : σ → σ) (unwinds : ε → Bool) (m : Program μ η σ ε α) :
    Program μ η σ ε α where
  run s env :=
    match (m.run s env).outcome with
    | .returned a => ⟨.returned a, leave (m.run s env).state, (m.run s env).trace⟩
    | .raised e =>
      ⟨.raised e, bif unwinds e then leave (m.run s env).state else (m.run s env).state,
        (m.run s env).trace⟩
    | .pending => m.run s env
  within s env := by
    have h := m.within s env
    cases (m.run s env).outcome <;> exact h
  settled s env more h := by
    have hm : (m.run s env).outcome ≠ .pending := by
      intro hp
      simp [hp] at h
    simp only [m.settled s env more hm]

/-- At most `n` passes of a loop whose body answers `inl` to go on and `inr` to leave. -/
def passes (body : β → Program μ η σ ε (β ⊕ α)) : ℕ → β → σ → List μ → Execution η σ ε α
  | 0, _, s, _ => ⟨.pending, s, []⟩
  | n + 1, b, s, env => ((body b).run s env).andThen (fun r s' ↦
      match r with
      | .inl b' => passes body n b' s' (env.drop ((body b).run s env).trace.length)
      | .inr a => ⟨.returned a, s', []⟩)

theorem passes_within (body : β → Program μ η σ ε (β ⊕ α)) (n : ℕ) (b : β) (s : σ)
    (env : List μ) : (passes body n b s env).trace.length ≤ env.length := by
  induction n generalizing b s env with
  | zero => exact Nat.zero_le _
  | succ n ih =>
    apply Execution.andThen_length ((body b).within s env)
    intro r
    cases r with
    | inl b' =>
      simpa only [List.length_drop] using
        ih b' _ (env.drop ((body b).run s env).trace.length)
    | inr a => exact Nat.zero_le _

theorem passes_settled (body : β → Program μ η σ ε (β ⊕ α)) {n k : ℕ} (hk : n ≤ k) (b : β)
    (s : σ) (env more : List μ) (h : (passes body n b s env).outcome ≠ .pending) :
    passes body k b s (env ++ more) = passes body n b s env := by
  induction n generalizing k b s env with
  | zero => exact absurd rfl h
  | succ n ih =>
    obtain ⟨k, rfl⟩ : ∃ j, k = j + 1 := ⟨k - 1, by omega⟩
    obtain ⟨hb, hr⟩ := Execution.andThen_settled h
    simp only [passes]
    rw [(body b).settled s env more hb]
    apply Execution.andThen_congr
    intro r hro
    have hrest := hr r hro
    cases r with
    | inl b' =>
      simp only [List.drop_append_of_le_length ((body b).within s env)]
      exact ih (by omega) b' _ _ hrest
    | inr a => rfl

/-- A loop. Every pass that goes on is expected to make a call, so the passes are
bounded by the answers. -/
def loop (body : β → Program μ η σ ε (β ⊕ α)) (b : β) : Program μ η σ ε α where
  run s env := passes body (env.length + 1) b s env
  within s env := passes_within body _ b s env
  settled s env more h := by
    apply passes_settled body _ b s env more h
    simp

theorem run_get (s : σ) (env : List μ) :
    (get : Program μ η σ ε σ).run s env = ⟨.returned s, s, []⟩ := rfl

theorem run_get_bind (f : σ → Program μ η σ ε α) (s : σ) (env : List μ) :
    (get >>= f).run s env = (f s).run s env := rfl

theorem run_modify (f : σ → σ) (s : σ) (env : List μ) :
    (modify f : Program μ η σ ε Unit).run s env = ⟨.returned (), f s, []⟩ := rfl

theorem run_raise (e : ε) (s : σ) (env : List μ) :
    (raise e : Program μ η σ ε α).run s env = ⟨.raised e, s, []⟩ := rfl

theorem raise_bind (e : ε) (f : α → Program μ η σ ε β) : raise e >>= f = raise e := by
  ext s env
  rfl

theorem run_focus {look : σ → Option τ} {put : τ → σ → σ} {absent : ε} {s : σ} {t : τ}
    (h : look s = some t) (m : Program μ η τ ε α) (env : List μ) :
    (focus look put absent m).run s env =
      ⟨(m.run t env).outcome, put (m.run t env).state s, (m.run t env).trace⟩ := by
  simp only [focus, h]

theorem run_focus_absent {look : σ → Option τ} {put : τ → σ → σ} {absent : ε} {s : σ}
    (h : look s = none) (m : Program μ η τ ε α) (env : List μ) :
    (focus look put absent m).run s env = ⟨.raised absent, s, []⟩ := by
  simp only [focus, h]

end Program

end FlowctlGame.Interaction
