import FlowctlGame.Deadline
import FlowctlGame.Interpretation
import FlowctlGame.Interaction.Lifting

namespace FlowctlGame

open Interaction Program Unistd Broker

variable {lib : TokenizerLibrary} {sol : Solution lib} {b : BrokerImpl lib} {k n : ℕ}

def Dry (ω : Stream Answer) (n : ℕ) : Prop :=
  ∀ k, n ≤ k → ∀ data, (ω.symbol k).read = .ok data → data = []

namespace Solution

section Dry

variable {ω : Stream Answer}

theorem not_flooded_of_dry (hdry : Dry ω n) : ¬ Flooded ω sol k := by
  intro h
  obtain ⟨-, state, -, htakes⟩ := h
  obtain ⟨buf, count, hread, hne, -⟩ := htakes n
  unfold Answer.readUpTo at hread
  cases hr : (ω.symbol (k + n)).read with
  | error e => simp [hr, Except.map] at hread
  | ok data =>
    simp only [hr, Except.map, Except.ok.injEq, hdry (k + n) (Nat.le_add_left n k) data hr,
      List.take_nil] at hread
    exact hne hread.symm

theorem finishes_callTokenizer {data : Bytes} :
    (callTokenizer data : Calls (Solution lib) Tokenizer.Result).Finishes ω sol k
      (fun _ _ _ ↦ True) := by
  refine finishes_get_bind ?_
  split
  · exact finishes_raise
  · split
    · exact finishes_raise
    · exact .bind (finishes_modify (finishes_pure trivial))

theorem finishes_begin (argument : TokenizerArgument) (limits : ResourceLimits) :
    (begin argument limits : Calls (Solution lib) Unit).Finishes ω sol k (fun _ _ _ ↦ True) := by
  refine finishes_get_bind (.bind (finishes_assert (fun _ ↦ ?_)))
  have hnew : (newTokenizer argument : Calls (Solution lib) lib.Instance).Finishes ω sol k
      (fun _ _ _ ↦ True) := by
    refine .bind (finishes_ask ?_)
    split
    · exact finishes_raise
    · split
      · exact finishes_pure trivial
      · exact finishes_raise
  refine .bind (hnew.mono (fun _ _ _ _ _ ↦ .bind (finishes_modify ?_)))
  split
  · refine .bind (finishes_callTokenizer.mono (fun _ _ _ _ _ ↦ .bind (finishes_modify ?_)))
    split
    · exact finishes_pure trivial
    · exact finishes_modify trivial
    · exact finishes_modify trivial
  · exact finishes_pure trivial

theorem finishes_send (msg : Bytes) :
    (send msg : Calls (Solution lib) Unit).Finishes ω sol k (fun _ _ _ ↦ True) :=
  finishes_get_bind (.bind (finishes_assert (fun _ ↦ finishes_modify trivial)))

theorem dry_end (hω : Ticking ω) (hdry : Dry ω n) (discardRemaining : Bool) :
    (end' discardRemaining : Calls (Solution lib) Result).Finishes ω sol k
      (fun _ _ _ ↦ True) :=
  ends_end hω discardRemaining (fun _ _ _ ↦ not_flooded_of_dry hdry)

end Dry

end Solution

namespace BrokerImpl

variable {ω : Stream Answer}

theorem finishes_solution {α : Type} {id : SolutionId} {m : Calls (Solution lib) α}
    (h : ∀ sol, m.Finishes ω sol k (fun _ _ _ ↦ True)) :
    (solution id m).Finishes ω b k (fun _ _ _ ↦ True) := by
  unfold solution solutionAt
  exact .focus (fun sol _ ↦ h sol)

theorem finishes_setnonblock (fd : Fd) :
    (setnonblock fd : Calls (Solution lib) Unit).Finishes ω sol k (fun _ _ _ ↦ True) := by
  refine .bind (.bind (finishes_ask (Solution.finishes_checked (fun flags _ ↦ ?_))))
  exact .bind (finishes_ask (Solution.finishes_checked (fun _ _ ↦ trivial)))

theorem finishes_construct :
    (construct : Calls (BrokerImpl lib) Unit).Finishes ω b k (fun _ _ _ ↦ True) := by
  refine finishes_get_bind (.forM (fun i b k ↦ finishes_get_bind (.focus (fun sol _ ↦ ?_))) _)
  refine .bind (Solution.finishes_freeze.mono (fun _ _ _ _ _ ↦ finishes_get_bind ?_))
  refine .bind ((finishes_setnonblock _).mono (fun _ _ _ _ _ ↦ ?_))
  exact .bind ((finishes_setnonblock _).mono (fun _ _ _ _ _ ↦ finishes_modify trivial))

/-- Every call of the broker comes to an end, if the solutions have only so much to say. -/
theorem finishes_run (hω : Ticking ω) (hdry : Dry ω n) (c : Command) :
    (run c : Calls (BrokerImpl lib) (Option Result)).Finishes ω b k (fun _ _ _ ↦ True) := by
  have hquiet {m : Calls (BrokerImpl lib) Unit} (h : m.Finishes ω b k (fun _ _ _ ↦ True)) :
      (do m; pure none : Calls (BrokerImpl lib) (Option Result)).Finishes ω b k
        (fun _ _ _ ↦ True) :=
    .bind (h.mono (fun _ _ _ _ _ ↦ finishes_pure trivial))
  have hbegin (id : SolutionId) (argument : TokenizerArgument) (limits : ResourceLimits) :
      (begin₃ id argument limits : Calls (BrokerImpl lib) Unit).Finishes ω b k
        (fun _ _ _ ↦ True) :=
    finishes_solution (fun _ ↦ Solution.finishes_begin _ _)
  cases c with
  | begin₁ id => exact hquiet (finishes_get_bind (finishes_get_bind (hbegin _ _ _)))
  | begin₂ id argument => exact hquiet (finishes_get_bind (hbegin _ _ _))
  | begin₃ id argument limits => exact hquiet (hbegin _ _ _)
  | send id msg => exact hquiet (finishes_solution (fun _ ↦ Solution.finishes_send _))
  | end' id discardRemaining =>
    refine .bind ((finishes_solution (fun _ ↦ Solution.dry_end hω hdry _)).mono ?_)
    exact fun _ _ _ _ _ ↦ finishes_pure trivial
  | terminate id => exact hquiet (finishes_solution (fun _ ↦ Solution.finishes_terminate))

end BrokerImpl

namespace BrokerMain

open BrokerInterface

variable {casts : Casts} {ω : Stream Answer}

theorem line_of_none {env : List (Option UInt8)} (h : none ∈ env) :
    ∃ (line : Bytes) (t : Option UInt8) (more : List (Option UInt8)),
    10 ∉ line ∧ (t = none ∨ t = some 10) ∧ env = line.map some ++ t :: more := by
  induction env with
  | nil => cases h
  | cons c env ih =>
    by_cases hc : c = none ∨ c = some 10
    · exact ⟨[], c, env, List.not_mem_nil, hc, rfl⟩
    · obtain ⟨hnone, hline⟩ := not_or.mp hc
      have hmem := (List.mem_cons.mp h).resolve_left (Ne.symm hnone)
      obtain ⟨line, t, more, hnot, ht, rfl⟩ := ih hmem
      obtain ⟨c, rfl⟩ := Option.ne_none_iff_exists'.mp hnone
      refine ⟨c :: line, t, more, ?_, ht, rfl⟩
      rw [List.mem_cons, not_or]
      exact ⟨fun heq ↦ hline (congrArg some heq.symm), hnot⟩

theorem finishes_recvCommand (hclosed : ∀ k, n ≤ k → (ω.symbol k).input = none) :
    (recvCommand casts : Serve lib Command).Finishes ω b k (fun _ _ k' ↦ k < k' ∧ k < n) := by
  refine .translate (.confined ?_)
  have hcalling : (BrokerTextInterface.recvCommand casts).Calling :=
    (calling_load _).bind
  rcases Nat.lt_or_ge k n with hk | hk
  · have hmem : none ∈ (ω.map (·.input)).slice k (n - k + 1) := by
      have hend : (ω.symbol (k + (n - k))).input = none := hclosed _ (by omega)
      exact List.mem_ofFn.mpr ⟨⟨n - k, Nat.lt_succ_self _⟩, hend⟩
    obtain ⟨line, t, more, hline, ht, heq⟩ := line_of_none hmem
    have hsettles : (BrokerTextInterface.recvCommand casts).Settles {}
        ((ω.map (·.input)).slice k (n - k + 1)) (fun _ _ _ ↦ True) := by
      rw [heq]
      refine BrokerTextInterface.settles_decodeCommand hline ht ?_
      split
      · exact fun _ ↦ trivial
      · exact fun _ _ _ _ ↦ trivial
    refine hsettles.finishes (fun command ia tr hx ↦ ⟨?_, hk⟩)
    have hne := hcalling {} _ _ _ hx command rfl
    have hpos := List.length_pos_of_ne_nil hne
    omega
  · have heof := BrokerTextInterface.takes_recvCommand_eof casts
    have hend : (ω.map (·.input)).slice k 1 = [none] := by
      rw [Stream.slice_one]
      exact congrArg (fun c ↦ [c]) (hclosed k hk)
    refine ⟨1, ?_, ?_⟩
    · rw [hend, heof.outcome]
      exact heof.settled
    · rw [hend, heof.outcome]
      exact trivial

theorem finishes_runOnce (hω : Ticking (ω.map (·.system))) (hdry : Dry (ω.map (·.system)) n)
    (hclosed : ∀ k, n ≤ k → (ω.symbol k).input = none) :
    (runOnce casts : Serve lib Unit).Finishes ω b k (fun _ _ k' ↦ k < k' ∧ k < n) := by
  refine .bind ((finishes_recvCommand hclosed).mono (fun command b k₁ _ hk₁ ↦ ?_))
  have hcall (c : BrokerImpl.Command) :
      (call c : Serve lib (Option Result)).Finishes ω b k₁ (fun _ _ k' ↦ k₁ ≤ k') :=
    .mono (.translate (BrokerImpl.finishes_run hω hdry c)) (fun _ _ _ hk _ ↦ hk)
  unfold run
  split
  · exact finishes_raise
  · refine .bind ((hcall _).mono (fun _ _ k₂ _ hk₂ ↦ ?_))
    exact finishes_pure ⟨by omega, hk₁.2⟩
  · refine .bind ((hcall _).mono (fun reply _ k₂ _ hk₂ ↦ ?_))
    cases reply with
    | none => exact finishes_pure ⟨by omega, hk₁.2⟩
    | some r =>
      unfold send output
      dsimp only
      split
      · exact finishes_ask ⟨by omega, hk₁.2⟩
      · exact .bind (finishes_ask finishes_raise)

/-- When the judge has closed its stream, the clock ticks and the solutions have only so much
to say, the process comes to an end. -/
theorem process_ends {options : BrokerImpl.Options} (hω : Ticking (ω.map (·.system)))
    (hdry : Dry (ω.map (·.system)) n) (hclosed : ∀ k, n ≤ k → (ω.symbol k).input = none) :
    ∃ size, ((main casts : Program Answer Event (BrokerImpl lib) String ℕ).run
      (BrokerImpl.new options) (ω.slice 0 size)).outcome ≠ .pending := by
  have hserve : (serve casts : Serve lib Empty).Finishes ω (BrokerImpl.new options) 0
      (fun _ _ _ ↦ True) := by
    refine .bind ((Finishes.translate BrokerImpl.finishes_construct).mono (fun _ _ _ _ _ ↦ ?_))
    refine Finishes.loop_rank (fun _ _ k ↦ n - k) (fun _ _ _ ↦ True) trivial ?_
    intro _ b k _
    refine .bind ((finishes_runOnce hω hdry hclosed).mono (fun _ _ k' _ hk ↦ ?_))
    exact finishes_pure ⟨trivial, by omega⟩
  have hmain : (main casts : Program Answer Event (BrokerImpl lib) String ℕ).Finishes ω
      (BrokerImpl.new options) 0 (fun _ _ _ ↦ True) := by
    refine .bind (hserve.attempt (fun x b k ↦ ?_))
    cases x with
    | ok never => nomatch never
    | error failure =>
      dsimp only
      split
      · exact finishes_pure trivial
      · exact finishes_raise
  exact hmain.halts

/-- The judge waits for a token of a solution that is silent, and closes its stream; a dash
stands for a call that is not for the judge. -/
def silentSession : Stream Answer where
  symbol k := { input := (ascii "-----BEGIN 0\n-END 0\n")[k]?, system := { now := k } }
  length := ⊤

theorem process_ends_silent : ∃ size,
    ((main decimalCasts : Program Answer Event (BrokerImpl SplitChar.library) String ℕ).run
      (BrokerImpl.new BrokerImpl.Options.single) (silentSession.slice 0 size)).outcome ≠
        .pending := by
  have hticking : Ticking (silentSession.map (·.system)) :=
    ⟨Int.le_refl 0, fun k ↦ Int.le_of_eq (Int.natCast_succ k).symm⟩
  refine process_ends (n := 20) hticking (fun k _ data h ↦ by cases h) (fun k hk ↦ ?_)
  exact List.getElem?_eq_none_iff.mpr hk

end BrokerMain

end FlowctlGame
