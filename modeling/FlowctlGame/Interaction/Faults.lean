import FlowctlGame.Interaction.Halting
import FlowctlGame.Interaction.Reasoning

namespace FlowctlGame.Interaction.Program

variable {μ η σ τ ε α β : Type} {usual fatal : η → Prop}

/-- As long as all calls are usual, `m` raises an error only on a fatal call, does not go on
after one, and returns with `Q`. -/
def FailsOn (usual fatal : η → Prop) (m : Program μ η σ ε α) (s : σ) (Q : α → σ → Prop) : Prop :=
  m.Ensures s (fun tr o s' ↦ (∀ e ∈ tr, usual e) →
    match o with
    | .returned a => (∀ e ∈ tr, ¬ fatal e) ∧ Q a s'
    | .raised _ => ∃ e ∈ tr, fatal e
    | .pending => ∀ e ∈ tr, ¬ fatal e)

theorem failsOn_pure {a : α} {s : σ} {Q : α → σ → Prop} (h : Q a s) :
    (Pure.pure a : Program μ η σ ε α).FailsOn usual fatal s Q := by
  refine ensures_pure.mpr (fun _ ↦ ⟨?_, h⟩)
  simp

theorem failsOn_modify {g : σ → σ} {s : σ} {Q : Unit → σ → Prop} (h : Q () (g s)) :
    (modify g : Program μ η σ ε Unit).FailsOn usual fatal s Q := by
  refine ensures_modify.mpr (fun _ ↦ ⟨?_, h⟩)
  simp

theorem failsOn_get_bind {f : σ → Program μ η σ ε β} {s : σ} {Q : β → σ → Prop}
    (h : (f s).FailsOn usual fatal s Q) : (get >>= f).FailsOn usual fatal s Q :=
  ensures_get_bind.mpr h

theorem failsOn_modify_bind {g : σ → σ} {f : Unit → Program μ η σ ε β} {s : σ}
    {Q : β → σ → Prop} (h : (f ()).FailsOn usual fatal (g s) Q) :
    (modify g >>= f).FailsOn usual fatal s Q :=
  ensures_modify_bind.mpr h

theorem FailsOn.bind {m : Program μ η σ ε α} {f : α → Program μ η σ ε β} {s : σ}
    {Q : α → σ → Prop} {R : β → σ → Prop} (h : m.FailsOn usual fatal s Q)
    (hf : ∀ a s', Q a s' → (f a).FailsOn usual fatal s' R) :
    (m >>= f).FailsOn usual fatal s R := by
  refine Ensures.sequence h ?_ ?_ ?_
  · intro tr a s' hm
    by_cases husual : ∀ e ∈ tr, usual e
    · obtain ⟨hclean, hQ⟩ := hm husual
      refine Ensures.mono (hf a s' hQ) (fun tr' o s'' hf husual' ↦ ?_)
      have hrest := hf (fun e he ↦ husual' e (List.mem_append_right _ he))
      cases o with
      | returned b => exact ⟨List.forall_mem_append.mpr ⟨hclean, hrest.1⟩, hrest.2⟩
      | raised e =>
        obtain ⟨e', hmem, hfatal⟩ := hrest
        exact ⟨e', List.mem_append_right _ hmem, hfatal⟩
      | pending => exact List.forall_mem_append.mpr ⟨hclean, hrest⟩
    · intro tr' o s'' _ husual'
      exact absurd (fun e he ↦ husual' e (List.mem_append_left _ he)) husual
  · exact fun tr e s' hm ↦ hm
  · exact fun tr s' hm ↦ hm

theorem failsOn_ask {reply : μ → α} {event : α → η} {s : σ} {Q : α → σ → Prop}
    (h : ∀ m, usual (event (reply m)) → ¬ fatal (event (reply m)) ∧ Q (reply m) s) :
    (ask reply event : Program μ η σ ε α).FailsOn usual fatal s Q := by
  refine ensures_ask.mpr ⟨fun _ ↦ by simp, fun m husual ↦ ?_⟩
  obtain ⟨hsafe, hQ⟩ := h m (husual _ (List.mem_singleton.mpr rfl))
  exact ⟨by simpa using hsafe, hQ⟩

/-- A call may be fatal if its failure is passed on at once. -/
theorem failsOn_ask_bind {reply : μ → α} {event : α → η} {f : α → Program μ η σ ε β} {s : σ}
    {Q : β → σ → Prop}
    (h : ∀ m, usual (event (reply m)) →
      fatal (event (reply m)) ∧ (∃ e, f (reply m) = raise e) ∨
        ¬ fatal (event (reply m)) ∧ (f (reply m)).FailsOn usual fatal s Q) :
    (ask reply event >>= f).FailsOn usual fatal s Q := by
  refine ensures_ask_bind.mpr ⟨fun _ ↦ by simp, fun m ↦ ?_⟩
  by_cases husual : usual (event (reply m))
  · rcases h m husual with ⟨hfatal, e, he⟩ | ⟨hsafe, hf⟩
    · rw [he, ensures_raise]
      exact fun _ ↦ ⟨_, List.mem_singleton.mpr rfl, hfatal⟩
    · refine Ensures.mono hf (fun tr o s' hf husual' ↦ ?_)
      have hrest := hf (fun e he ↦ husual' e (List.mem_cons_of_mem _ he))
      cases o with
      | returned b => exact ⟨List.forall_mem_cons.mpr ⟨hsafe, hrest.1⟩, hrest.2⟩
      | raised e =>
        obtain ⟨e', hmem, hfatal⟩ := hrest
        exact ⟨e', List.mem_cons_of_mem _ hmem, hfatal⟩
      | pending => exact List.forall_mem_cons.mpr ⟨hsafe, hrest⟩
  · intro tr o s' _ husual'
    exact absurd (husual' _ (List.mem_cons_self ..)) husual

theorem FailsOn.loop {body : β → Program μ η σ ε (β ⊕ α)} (I : β → σ → Prop)
    {Q : α → σ → Prop} {b : β} {s : σ} (h₀ : I b s)
    (hbody : ∀ b s, I b s → (body b).FailsOn usual fatal s (fun r s' ↦
      match r with
      | .inl b' => I b' s'
      | .inr a => Q a s')) : (Program.loop body b).FailsOn usual fatal s Q := by
  refine Ensures.loop (fun b tr s ↦ (∀ e ∈ tr, usual e) → (∀ e ∈ tr, ¬ fatal e) ∧ I b s)
    (fun _ ↦ ⟨by simp, h₀⟩) (fun _ _ _ hI husual ↦ (hI husual).1) ?_
  intro b tr s hI
  by_cases husual : ∀ e ∈ tr, usual e
  · obtain ⟨hclean, hI⟩ := hI husual
    refine Ensures.mono (hbody b s hI) (fun tr' o s' hb ↦ ?_)
    rcases o with (b' | a) | e | _
    · intro husual'
      have hrest := hb (fun e he ↦ husual' e (List.mem_append_right _ he))
      exact ⟨List.forall_mem_append.mpr ⟨hclean, hrest.1⟩, hrest.2⟩
    · intro husual'
      have hrest := hb (fun e he ↦ husual' e (List.mem_append_right _ he))
      exact ⟨List.forall_mem_append.mpr ⟨hclean, hrest.1⟩, hrest.2⟩
    · intro husual'
      obtain ⟨e', hmem, hfatal⟩ := hb (fun e he ↦ husual' e (List.mem_append_right _ he))
      exact ⟨e', List.mem_append_right _ hmem, hfatal⟩
    · intro husual'
      have hrest := hb (fun e he ↦ husual' e (List.mem_append_right _ he))
      exact List.forall_mem_append.mpr ⟨hclean, hrest⟩
  · intro tr' o s' _
    have habsurd : ¬ ∀ e ∈ tr ++ tr', usual e :=
      fun h ↦ husual (fun e he ↦ h e (List.mem_append_left _ he))
    rcases o with (b' | a) | e | _
    · exact fun h ↦ absurd h habsurd
    · exact fun h ↦ absurd h habsurd
    · exact fun h ↦ absurd h habsurd
    · exact fun h ↦ absurd h habsurd

theorem FailsOn.focus {look : σ → Option τ} {put : τ → σ → σ} {absent : ε}
    {m : Program μ η τ ε α} {s : σ} {t : τ} {Q : α → σ → Prop} (hlook : look s = some t)
    (h : m.FailsOn usual fatal t (fun a t' ↦ Q a (put t' s))) :
    (Program.focus look put absent m).FailsOn usual fatal s Q := by
  refine Ensures.focus (fun t' ht' ↦ ?_) (fun hnone ↦ by simp [hlook] at hnone)
  obtain rfl : t = t' := Option.some.inj (hlook.symm.trans ht')
  exact h

theorem FailsOn.scopeExit {leave : σ → σ} {unwinds : ε → Bool} {m : Program μ η σ ε α} {s : σ}
    {Q : α → σ → Prop} (h : m.FailsOn usual fatal s (fun a s' ↦ Q a (leave s'))) :
    (Program.scopeExit leave unwinds m).FailsOn usual fatal s Q := by
  refine Ensures.scopeExit (Ensures.mono h (fun tr o s' ho ↦ ?_))
  cases o with
  | returned a => exact ho
  | raised e => exact ho
  | pending => exact ho

/-- Where all calls are usual, `m` returns exactly if it comes to an end and no call is fatal. -/
theorem FailsOn.returns_iff {m : Program μ η σ ε α} {s : σ} {Q : α → σ → Prop} {ω : Stream μ}
    {k : ℕ} (h : m.FailsOn usual fatal s Q)
    (husual : ∀ n, ∀ e ∈ (m.run s (ω.slice k n)).trace, usual e) :
    (∃ n a, (m.run s (ω.slice k n)).outcome = .returned a) ↔
      (∀ n, ∀ e ∈ (m.run s (ω.slice k n)).trace, ¬ fatal e) ∧
        ∃ n, (m.run s (ω.slice k n)).outcome ≠ .pending := by
  have hrun (n : ℕ) := h _ _ _ (executes_run m s (ω.slice k n)) (husual n)
  constructor
  · intro hreturned
    obtain ⟨n, a, hn⟩ := hreturned
    have hends : (m.run s (ω.slice k n)).outcome ≠ .pending := by
      rw [hn]
      exact fun h ↦ by cases h
    refine ⟨fun n' ↦ ?_, n, hends⟩
    have hclean := hrun n'
    cases ho : (m.run s (ω.slice k n')).outcome with
    | returned a' =>
      rw [ho] at hclean
      exact hclean.1
    | pending =>
      rw [ho] at hclean
      exact hclean
    | raised e =>
      have hends' : (m.run s (ω.slice k n')).outcome ≠ .pending := by
        rw [ho]
        exact fun h ↦ by cases h
      rw [run_slice_settled hends hends', ho] at hn
      cases hn
  · intro hboth
    obtain ⟨hclean, n, hn⟩ := hboth
    have hend := hrun n
    cases ho : (m.run s (ω.slice k n)).outcome with
    | returned a => exact ⟨n, a, ho⟩
    | pending => exact absurd ho hn
    | raised e =>
      rw [ho] at hend
      obtain ⟨e', hmem, hfatal⟩ := hend
      exact absurd hfatal (hclean n e' hmem)

/-- A fatal call is the last one: `m` is left at once, with an error to blame. -/
def StopsOn (fatal : η → Prop) (blamed : ε → Prop) (m : Program μ η σ ε α) : Prop :=
  ∀ s, m.Ensures s (fun tr o _ ↦ (∃ e ∈ tr, fatal e) → ∃ e, o = .raised e ∧ blamed e)

section StopsOn

variable {blamed : ε → Prop}

theorem stopsOn_pure (a : α) : StopsOn fatal blamed (Pure.pure a : Program μ η σ ε α) :=
  fun s ↦ by simp

theorem stopsOn_raise (e : ε) : StopsOn fatal blamed (raise e : Program μ η σ ε α) :=
  fun s ↦ by simp

theorem stopsOn_modify (g : σ → σ) :
    StopsOn fatal blamed (modify g : Program μ η σ ε Unit) :=
  fun s ↦ by simp

theorem stopsOn_get_bind {f : σ → Program μ η σ ε β} (h : ∀ s, StopsOn fatal blamed (f s)) :
    StopsOn fatal blamed (get >>= f) :=
  fun s ↦ ensures_get_bind.mpr (h s s)

theorem StopsOn.bind {m : Program μ η σ ε α} {f : α → Program μ η σ ε β}
    (h : StopsOn fatal blamed m) (hf : ∀ a, StopsOn fatal blamed (f a)) :
    StopsOn fatal blamed (m >>= f) := by
  intro s
  refine Ensures.sequence (h s) ?_ (fun _ _ _ hm ↦ ?_) (fun _ _ hm hfatal ↦ ?_)
  · intro tr a s' hm
    refine Ensures.mono (hf a s') (fun tr' o s'' ht hx ↦ ?_)
    obtain ⟨e, hmem, hfatal⟩ := hx
    rcases List.mem_append.mp hmem with hmem | hmem
    · obtain ⟨_, hr, -⟩ := hm ⟨e, hmem, hfatal⟩
      cases hr
    · exact ht ⟨e, hmem, hfatal⟩
  · simpa using hm
  · obtain ⟨_, hr, -⟩ := hm hfatal
    cases hr

theorem stopsOn_ask_bind {reply : μ → α} {event : α → η} {f : α → Program μ η σ ε β}
    (h : ∀ a, fatal (event a) → ∃ e, f a = raise e ∧ blamed e)
    (hf : ∀ a, StopsOn fatal blamed (f a)) : StopsOn fatal blamed (ask reply event >>= f) := by
  intro s
  refine ensures_ask_bind.mpr ⟨by simp, fun m ↦ ?_⟩
  by_cases hfatal : fatal (event (reply m))
  · obtain ⟨e, he, hblamed⟩ := h _ hfatal
    rw [he, ensures_raise]
    exact fun _ ↦ ⟨e, rfl, hblamed⟩
  · refine Ensures.mono (hf (reply m) s) (fun tr o s' ht hx ↦ ht ?_)
    obtain ⟨e, hmem, he⟩ := hx
    rcases List.mem_cons.mp hmem with rfl | hmem
    · exact absurd he hfatal
    · exact ⟨e, hmem, he⟩

theorem StopsOn.loop {body : β → Program μ η σ ε (β ⊕ α)}
    (h : ∀ b, StopsOn fatal blamed (body b)) (b : β) :
    StopsOn fatal blamed (Program.loop body b) := by
  intro s
  refine Ensures.loop (fun _ tr _ ↦ ∀ e ∈ tr, ¬ fatal e) (by simp) (fun _ tr _ hI hx ↦ ?_) ?_
  · obtain ⟨e, hmem, he⟩ := hx
    exact absurd he (hI e hmem)
  · intro b tr s hI
    refine Ensures.mono (h b s) (fun tr' o s' ht ↦ ?_)
    have hlate : (∃ e ∈ tr ++ tr', fatal e) → ∃ e ∈ tr', fatal e := by
      intro hx
      obtain ⟨e, hmem, he⟩ := hx
      rcases List.mem_append.mp hmem with hmem | hmem
      · exact absurd he (hI e hmem)
      · exact ⟨e, hmem, he⟩
    rcases o with (b' | a) | e | _
    · intro e hmem he
      obtain ⟨_, hr, -⟩ := ht (hlate ⟨e, hmem, he⟩)
      cases hr
    · intro hx
      obtain ⟨_, hr, -⟩ := ht (hlate hx)
      cases hr
    · simpa using fun e' hmem he ↦ ht (hlate ⟨e', List.mem_append.mpr hmem, he⟩)
    · intro hx
      obtain ⟨_, hr, -⟩ := ht (hlate hx)
      cases hr

end StopsOn

end FlowctlGame.Interaction.Program
