import FlowctlGame.Interaction.Taking

namespace FlowctlGame.Interaction

open Program

variable {μ η σ ε α β : Type}

/-- Objects as plain data of a fixed size. What is not part of the value, the padding, is
written as it was found and not looked at when an object is read. -/
structure Layout (β α : Type) where
  size : ℕ
  size_pos : 0 < size
  bytes : α → List β → List β
  value : List β → α
  length_bytes : ∀ a padding, (bytes a padding).length = size
  value_bytes : ∀ a padding, value (bytes a padding) = a

namespace Layout

variable (layout : Layout β α)

/-- An object together with its padding. -/
def record (x : α × List β) : List β := layout.bytes x.1 x.2

theorem length_record (x : α × List β) : (layout.record x).length = layout.size :=
  layout.length_bytes x.1 x.2

theorem value_record (x : α × List β) : layout.value (layout.record x) = x.1 :=
  layout.value_bytes x.1 x.2

theorem take_records (xs : List (α × List β)) (n : ℕ) :
    ∃ tail, (xs.flatMap layout.record).take n =
      (xs.take (n / layout.size)).flatMap layout.record ++ tail ∧ tail.length < layout.size := by
  have hpos := layout.size_pos
  induction xs generalizing n with
  | nil => exact ⟨[], by simp, hpos⟩
  | cons x xs ih =>
    have hlen := layout.length_record x
    by_cases hn : n < layout.size
    · refine ⟨((x :: xs).flatMap layout.record).take n, ?_, ?_⟩
      · rw [Nat.div_eq_of_lt hn]
        rfl
      · exact Nat.lt_of_le_of_lt (List.length_take_le _ _) hn
    · obtain ⟨m, rfl⟩ := Nat.exists_eq_add_of_le (Nat.le_of_not_lt hn)
      obtain ⟨tail, htail, hlt⟩ := ih m
      refine ⟨tail, ?_, hlt⟩
      rw [Nat.add_div_left _ hpos, List.take_succ_cons, List.flatMap_cons, List.flatMap_cons,
        List.append_assoc, ← htail, ← hlen, List.take_length_add_append]

end Layout

namespace Program

/-- Read `n` symbols, or as many as there are before the end of the stream. -/
def receive (symbol : μ → Option β) (event : Option β → η) : ℕ → Program μ η σ ε (List β)
  | 0 => pure []
  | n + 1 => do
    match ← ask symbol event with
    | none => pure []
    | some x =>
      let xs ← receive symbol event n
      pure (x :: xs)

inductive Received (event : Option β → η) (n : ℕ) : List η → Outcome ε (List β) → Prop
  | whole (xs : List β) (hlen : xs.length = n) :
      Received event n (xs.map (event ∘ some)) (.returned xs)
  | short (xs : List β) (hlen : xs.length < n) :
      Received event n (xs.map (event ∘ some) ++ [event none]) (.returned xs)
  | waiting (xs : List β) (hlen : xs.length < n) :
      Received event n (xs.map (event ∘ some)) .pending

variable {symbol : μ → Option β} {event : Option β → η} {n : ℕ}

theorem receive_spec (n : ℕ) (s : σ) :
    (receive symbol event n : Program μ η σ ε (List β)).Ensures s (fun tr o s' ↦
      s' = s ∧ Received event n tr o) := by
  induction n with
  | zero =>
    simp only [receive, ensures_pure]
    exact ⟨trivial, .whole [] rfl⟩
  | succ n ih =>
    simp only [receive, ensures_ask_bind]
    refine ⟨⟨trivial, .waiting [] (Nat.succ_pos n)⟩, fun m ↦ ?_⟩
    cases symbol m with
    | none =>
      simp only [ensures_pure]
      exact ⟨trivial, .short [] (Nat.succ_pos n)⟩
    | some x =>
      refine ih.sequence ?_ ?_ ?_
      · intro tr xs s' h
        obtain ⟨rfl, hx⟩ := h
        simp only [ensures_pure, List.append_nil]
        refine ⟨trivial, ?_⟩
        cases hx with
        | whole _ hlen => exact .whole (x :: xs) (congrArg (· + 1) hlen)
        | short _ hlen => exact .short (x :: xs) (Nat.succ_lt_succ hlen)
      · intro tr e s' h
        cases h.2
      · intro tr s' h
        obtain ⟨rfl, hx⟩ := h
        refine ⟨rfl, ?_⟩
        cases hx with
        | waiting xs hlen => exact .waiting (x :: xs) (Nat.succ_lt_succ hlen)

variable (answer : Option β → μ)

theorem performs_symbol (hanswer : ∀ x, symbol (answer x) = x) (x : Option β) (s : σ) :
    (ask symbol event : Program μ η σ ε (Option β)).Performs s [event x] (.returned x) s := by
  simpa only [hanswer] using performs_ask symbol event (answer x) s

theorem receive_whole (hanswer : ∀ x, symbol (answer x) = x) (xs : List β) (s : σ) :
    (receive symbol event xs.length : Program μ η σ ε (List β)).Performs s
      (xs.map (event ∘ some)) (.returned xs) s := by
  induction xs with
  | nil => exact performs_pure [] s
  | cons x xs ih =>
    have hrest := ih.bind (f := fun xs ↦ pure (x :: xs)) (performs_pure _ s)
    rw [List.append_nil] at hrest
    exact (performs_symbol answer hanswer (some x) s).bind hrest

theorem receive_short (hanswer : ∀ x, symbol (answer x) = x) (xs : List β) {n : ℕ}
    (hlen : xs.length < n) (s : σ) :
    (receive symbol event n : Program μ η σ ε (List β)).Performs s
      (xs.map (event ∘ some) ++ [event none]) (.returned xs) s := by
  induction xs generalizing n with
  | nil =>
    obtain ⟨n, rfl⟩ := Nat.exists_eq_add_of_lt hlen
    exact (performs_symbol answer hanswer none s).bind (performs_pure [] s)
  | cons x xs ih =>
    obtain ⟨n, rfl⟩ : ∃ k, n = k + 1 := ⟨n - 1, by omega⟩
    have hrest := (ih (Nat.lt_of_succ_lt_succ hlen)).bind (f := fun xs ↦ pure (x :: xs))
      (performs_pure _ s)
    rw [List.append_nil] at hrest
    exact (performs_symbol answer hanswer (some x) s).bind hrest

end Program

end FlowctlGame.Interaction
