import FlowctlGame.Session
import FlowctlGame.Interaction.Entering

namespace FlowctlGame

open Interaction Program Unistd Broker

variable {lib : TokenizerLibrary} {sol : Solution lib} {k : ℕ} {ω : Stream Answer}

/-- The clock advances by at least one tick with every call. -/
def Ticking (ω : Stream Answer) : Prop :=
  0 ≤ (ω.symbol 0).now ∧ ∀ k, (ω.symbol k).now + 1 ≤ (ω.symbol (k + 1)).now

theorem Ticking.mono (h : Ticking ω) {k k' : ℕ} (hk : k < k') :
    (ω.symbol k).now < (ω.symbol k').now := by
  obtain ⟨d, rfl⟩ := Nat.exists_eq_add_of_lt hk
  induction d with
  | zero =>
    have hstep := h.2 k
    exact Int.lt_of_lt_of_le (by omega) hstep
  | succ d ih =>
    have hprev := ih (by omega)
    have hstep := h.2 (k + d + 1)
    exact hprev.trans (Int.lt_of_lt_of_le (by omega) hstep)

theorem two_pow_64 : ((2 ^ 64 : ℕ) : Int) = 18446744073709551616 := by decide

/-- In 64-bit nanoseconds the real-time limit is not positive. -/
def Expired (limits : ResourceLimits) : Prop :=
  Int.bmod (limits.realTimeLimit.toInt * 1000000) (2 ^ 64) ≤ 0

theorem lt_bmod_mul {x : Int} (hx : 0 < Int.bmod (x * 1000000) (2 ^ 64)) :
    4 < Int.bmod (0 + x * 1000000) (2 ^ 64) := by
  simp only [Int.bmod, two_pow_64, Int.zero_add] at hx ⊢
  split at hx <;> split <;> omega

theorem lt_deadline {limits : ResourceLimits} (h : ¬ Expired limits) :
    4 < deadline 0 limits.realTimeLimit :=
  lt_bmod_mul (Int.not_le.mp h)

/-- The read that `answer` has in store is a chunk to which the tokenizer answers `CONTINUE`. -/
def TokenizerLibrary.Takes (lib : TokenizerLibrary) (answer : Answer)
    (tokenizer tokenizer' : lib.Instance) : Prop :=
  ∃ buf n, answer.readUpTo = .ok buf ∧ buf ≠ [] ∧
    lib.call tokenizer buf = .ok (⟨.CONTINUE, n⟩, tokenizer')

/-- There is an endless sequence of reads to all of which the tokenizer answers `CONTINUE`. -/
def TokenizerLibrary.Floodable (lib : TokenizerLibrary) (tokenizer : lib.Instance) : Prop :=
  ∃ state : ℕ → lib.Instance, state 0 = tokenizer ∧
    ∀ n, ∃ answer, lib.Takes answer (state n) (state (n + 1))

namespace Solution

/-- From the call `k` on, every read would be a chunk to which the tokenizer answers
`CONTINUE`. -/
def Flooded (ω : Stream Answer) (sol : Solution lib) (k : ℕ) : Prop :=
  sol.tokenizerStatus = .CONTINUE ∧ ∃ state : ℕ → lib.Instance,
    sol.tokenizer = some (state 0) ∧ ∀ n, lib.Takes (ω.symbol (k + n)) (state n) (state (n + 1))

/-- Where `m` begins to read, no endless flood lies ahead. -/
def Unflooded {α : Type} (m : Calls (Solution lib) α) (ω : Stream Answer) (sol : Solution lib)
    (k : ℕ) : Prop :=
  ∀ sol' k', Enters readLoop ω sol' k' m sol k → ¬ Flooded ω sol' k'

/-- `m` comes to an end unless it is flooded. -/
abbrev EndsUnflooded {α : Type} (m : Calls (Solution lib) α) (ω : Stream Answer)
    (sol : Solution lib) (k : ℕ) (R : α → Solution lib → ℕ → Prop) : Prop :=
  m.FinishesIf readLoop (fun sol' k' ↦ ¬ Flooded ω sol' k') ω sol k R

/-- The read at `k` leaves the token undecided only by feeding the tokenizer once more. -/
def Feeds (ω : Stream Answer) (x' x : Solution lib × ℕ) : Prop :=
  x.1.tokenizerStatus = .CONTINUE ∧ (x'.1.tokenizerStatus ≠ .CONTINUE ∨
    x'.2 = x.2 + 1 ∧ ∃ t t', x.1.tokenizer = some t ∧ x'.1.tokenizer = some t' ∧
      lib.Takes (ω.symbol x.2) t t')

theorem acc_feeds (h : ¬ Flooded ω sol k) : Acc (Feeds ω) (sol, k) := by
  by_contra hacc
  obtain ⟨f, hf₀, hf⟩ := not_acc_iff_exists_descending_chain.mp hacc
  have hfed (n : ℕ) : (f (n + 1)).2 = (f n).2 + 1 ∧ ∃ t t', (f n).1.tokenizer = some t ∧
      (f (n + 1)).1.tokenizer = some t' ∧ lib.Takes (ω.symbol (f n).2) t t' :=
    (hf n).2.resolve_left (not_not.mpr (hf (n + 1)).1)
  have hpos (n : ℕ) : (f n).2 = k + n := by
    induction n with
    | zero => rw [hf₀, Nat.add_zero]
    | succ n ih => rw [(hfed n).1, ih, Nat.add_assoc]
  choose state next hstate hnext htakes using fun n ↦ (hfed n).2
  refine h ⟨?_, state, ?_, fun n ↦ ?_⟩
  · simpa only [hf₀] using (hf 0).1
  · simpa only [hf₀] using hstate 0
  · have heq : state (n + 1) = next n := Option.some.inj ((hstate (n + 1)).symm.trans (hnext n))
    rw [heq, ← hpos n]
    exact htakes n

section Finishes

variable {α β : Type} {R : α → Solution lib → ℕ → Prop} {T : Unit → Solution lib → ℕ → Prop}

theorem finishes_assert {p : Prop} [Decidable p] {msg : String} (h : p → T () sol k) :
    (assert p msg : Calls (Solution lib) Unit).Finishes ω sol k T := by
  unfold assert
  split
  · exact finishes_pure (h ‹_›)
  · exact finishes_raise

theorem finishes_checked {call : String} {r : Except Errno α} (h : ∀ a, r = .ok a → R a sol k) :
    (checked call r : Calls (Solution lib) α).Finishes ω sol k R := by
  cases r with
  | ok a => exact finishes_pure (h a rfl)
  | error e => exact finishes_raise

theorem finishes_epollCreate1 (h : T () sol (k + 1)) :
    (epollCreate1 : Calls (Solution lib) Unit).Finishes ω sol k T :=
  .bind (finishes_ask (finishes_checked (fun _ _ ↦ h)))

theorem finishes_epollCtlAdd {fd : Fd} {events : EpollEvent} (h : T () sol (k + 1)) :
    (epollCtlAdd fd events : Calls (Solution lib) Unit).Finishes ω sol k T :=
  .bind (finishes_ask (finishes_checked (fun _ _ ↦ h)))

theorem finishes_epollCtlDel {fd : Fd} (h : T () sol (k + 1)) :
    (epollCtlDel fd : Calls (Solution lib) Unit).Finishes ω sol k T :=
  .bind (finishes_ask (finishes_checked (fun _ _ ↦ h)))

theorem finishes_poll (hω : Ticking ω) (untilPoint : Int) {now : Int}
    (hnow : now < (ω.symbol k).now) :
    (poll untilPoint ([], now)).Finishes ω sol k (fun b s' _ ↦
      s' = sol ∧ (untilPoint ≤ now → b = ([], now))) := by
  refine Finishes.loop_rank (fun b _ _ ↦ (untilPoint - b.2).toNat)
    (fun b s' k' ↦ s' = sol ∧ b.2 < (ω.symbol k').now ∧ (untilPoint ≤ now → b = ([], now)))
    ⟨rfl, hnow, fun _ ↦ rfl⟩ ?_
  intro b s' k' hI
  obtain ⟨rfl, hb, hlate⟩ := hI
  obtain ⟨events, now'⟩ := b
  dsimp only
  split
  · next hgo =>
    refine .bind (.bind (finishes_ask (finishes_checked (fun events' _ ↦ ?_))))
    refine .bind (finishes_ask (finishes_pure ⟨⟨rfl, hω.mono (by omega), fun hu ↦ ?_⟩, ?_⟩))
    · cases hlate hu
      omega
    · have htick := hω.mono (Nat.lt_add_one k')
      dsimp only at hb hgo ⊢
      omega
  · exact finishes_pure ⟨rfl, hlate⟩

theorem finishes_writeLoop :
    (writeLoop : Calls (Solution lib) Unit).Finishes ω sol k (fun _ _ _ ↦ True) := by
  refine Finishes.loop_rank (fun _ s' _ ↦ s'.inbuf.length) (fun _ _ _ ↦ True) trivial ?_
  intro _ s' k' _
  refine finishes_get_bind ?_
  split
  · exact finishes_pure trivial
  · next hne =>
    refine .bind (finishes_ask ?_)
    split
    · exact finishes_pure trivial
    · exact finishes_raise
    · next size hsize =>
      refine .bind (finishes_modify (finishes_pure ⟨trivial, ?_⟩))
      have hpos : 0 < s'.inbuf.length := List.length_pos_of_ne_nil hne
      have hsome : 0 < size := by
        unfold Answer.writeOf at hsize
        cases hw : (ω.symbol k').write with
        | error e => simp [hw, Except.map] at hsize
        | ok n =>
          simp only [hw, Except.map, Except.ok.injEq] at hsize
          omega
      simp only [List.length_drop]
      omega

theorem finishes_handleWriteEnd {ev : EpollEvent} :
    (handleWriteEnd ev : Calls (Solution lib) Unit).Finishes ω sol k (fun _ _ _ ↦ True) := by
  refine finishes_get_bind ?_
  split
  · exact finishes_epollCtlDel trivial
  · refine .bind (finishes_assert (fun _ ↦ ?_))
    split
    · exact finishes_pure trivial
    · refine .bind (finishes_writeLoop.mono (fun _ s' k' _ _ ↦ ?_))
      refine finishes_get_bind ?_
      split
      · exact finishes_epollCtlDel trivial
      · exact finishes_pure trivial

theorem finishes_handleChunk {buf : Bytes} :
    (handleChunk buf : Calls (Solution lib) Unit).Finishes ω sol k (fun _ s' k' ↦
      s'.tokenizerStatus ≠ .CONTINUE ∨ k' = k ∧ ∃ t t' n, sol.tokenizer = some t ∧
        s'.tokenizer = some t' ∧ lib.call t buf = .ok (⟨.CONTINUE, n⟩, t')) := by
  refine .bind (finishes_get_bind ?_)
  split
  · exact finishes_raise
  · next tokenizer htok =>
    split
    · exact finishes_raise
    · next result tokenizer' hcall =>
      obtain ⟨status, n⟩ := result
      refine .bind (finishes_modify (finishes_pure (.bind (finishes_modify ?_))))
      cases status with
      | FAIL => exact finishes_get_bind (finishes_epollCtlDel (.inl (by simp)))
      | CONTINUE => exact finishes_modify (.inr ⟨rfl, tokenizer, tokenizer', n, htok, rfl, hcall⟩)
      | ACCEPTED => exact finishes_modify (.inl (by simp))

theorem finishes_readLoop (h : ¬ Flooded ω sol k) :
    (readLoop : Calls (Solution lib) Unit).Finishes ω sol k (fun _ _ _ ↦ True) := by
  refine Finishes.loop (r := InvImage (Feeds ω) Prod.snd) (fun _ _ _ ↦ True)
    (InvImage.accessible _ (acc_feeds h)) trivial ?_
  intro _ s' k' _
  refine finishes_get_bind ?_
  split
  · exact finishes_pure trivial
  · next hcontinue =>
    refine .bind (finishes_ask ?_)
    split
    · exact finishes_pure trivial
    · exact finishes_pure trivial
    · exact finishes_raise
    · next buf hne hread =>
      refine .bind (finishes_handleChunk.mono (fun _ s'' k'' _ hchunk ↦ ?_))
      refine finishes_pure ⟨trivial, not_not.mp hcontinue, hchunk.imp_right (fun hfed ↦ ?_)⟩
      obtain ⟨hk, t, t', n, ht, ht', hcall⟩ := hfed
      exact ⟨hk, t, t', ht, ht', buf, n, hread, hne, hcall⟩

theorem ends_handleEvents {events : List EpollEvent} :
    EndsUnflooded (handleEvents events : Calls (Solution lib) (Option Result.Status)) ω sol k
      (fun _ _ _ ↦ True) := by
  induction events generalizing sol k with
  | nil => exact Finishes.always (finishes_pure trivial)
  | cons ev events ih =>
    refine finishesIf_get_bind ?_
    split
    · exact .bind (.always (finishes_handleWriteEnd.mono (fun _ _ _ _ _ ↦ ih)))
    · split
      · rw [handleReadEnd_eq]
        split
        · exact .bind (.always (finishes_pure (Finishes.always (finishes_pure trivial))))
        · refine .bind (.bind (finishesIf_part (fun hdry ↦ (finishes_readLoop hdry).mono ?_)))
          exact fun _ _ _ _ _ ↦ Finishes.always (finishes_pure ih)
      · exact ih

theorem ends_round (hω : Ticking ω) {untilPoint : Int} :
    EndsUnflooded (round untilPoint ()) ω sol k (fun c _ k' ↦
      ∀ b, c = .inl b → k < k' ∧ (ω.symbol k).now < untilPoint) := by
  refine finishesIf_get_bind ?_
  split
  · exact Finishes.always (finishes_pure (fun _ h ↦ by cases h))
  · refine .bind (.always (finishes_ask (.bind (.always ?_))))
    refine (finishes_poll hω untilPoint (hω.mono (Nat.lt_succ_self k))).mono ?_
    intro b s' k' hk hpoll
    obtain ⟨events, now⟩ := b
    obtain ⟨rfl, hlate⟩ := hpoll
    by_cases hu : untilPoint ≤ (ω.symbol k).now
    · cases hlate hu
      dsimp only
      rw [if_pos ⟨rfl, hu⟩]
      exact Finishes.always (finishes_pure (fun _ h ↦ by cases h))
    · dsimp only
      split
      · exact Finishes.always (finishes_pure (fun _ h ↦ by cases h))
      · refine .bind (ends_handleEvents.mono (fun status s'' k'' hk' _ ↦ ?_))
        cases status with
        | some status => exact Finishes.always (finishes_pure (fun _ h ↦ by cases h))
        | none => exact Finishes.always (finishes_pure (fun _ _ ↦ ⟨by omega, by omega⟩))

theorem ends_communicate (hω : Ticking ω) :
    EndsUnflooded (communicate : Calls (Solution lib) Result.Status) ω sol k
      (fun _ _ _ ↦ True) := by
  refine finishesIf_get_bind (.bind (.always (finishes_assert (fun _ ↦ ?_))))
  refine .bind (.always (finishes_ask ?_))
  generalize deadline (ω.symbol k).now sol.resourceLimits.realTimeLimit = untilPoint
  refine .bind (.always (finishes_epollCreate1 (.bind (.always (finishes_epollCtlAdd ?_)))))
  refine .bind (.always (finishes_epollCtlAdd ?_))
  refine FinishesIf.loop_rank (fun _ _ k' ↦ (untilPoint - (ω.symbol k').now).toNat)
    (fun _ _ _ ↦ True) trivial ?_
  intro _ s' k' _
  refine (ends_round hω).mono (fun c s'' k'' _ hround ↦ ?_)
  cases c with
  | inr status => exact trivial
  | inl b =>
    obtain ⟨hk, hearly⟩ := hround b rfl
    have htick := hω.mono hk
    exact ⟨trivial, by omega⟩

theorem finishes_killerRequest {σ : Type} {s : σ} {act : Killer.Act} {id : Killer.Id} :
    (killerRequest act id : Calls σ Killer.Status).Finishes ω s k (fun _ _ _ ↦ True) := by
  refine .bind (finishes_ask ?_)
  split
  · exact finishes_pure trivial
  · exact finishes_raise

theorem finishes_freeze :
    (freeze : Calls (Solution lib) Killer.Status).Finishes ω sol k (fun _ _ _ ↦ True) := by
  refine finishes_get_bind (.bind (finishes_killerRequest.mono (fun _ _ _ _ _ ↦ ?_)))
  exact .bind (finishes_assert (fun _ ↦ finishes_pure trivial))

theorem finishes_unfreeze :
    (unfreeze : Calls (Solution lib) Killer.Status).Finishes ω sol k (fun _ _ _ ↦ True) := by
  refine finishes_get_bind (.bind (finishes_killerRequest.mono (fun _ _ _ _ _ ↦ ?_)))
  exact .bind (finishes_assert (fun _ ↦ finishes_pure trivial))

theorem finishes_terminate :
    (terminate : Calls (Solution lib) Unit).Finishes ω sol k (fun _ _ _ ↦ True) := by
  refine finishes_get_bind (.bind (finishes_killerRequest.mono (fun _ _ _ _ _ ↦ ?_)))
  exact finishes_modify trivial

theorem finishes_conclude (discardRemaining : Bool) (status : Result.Status) :
    (conclude discardRemaining status : Calls (Solution lib) Result).Finishes ω sol k
      (fun _ _ _ ↦ True) := by
  have hrest (sol : Solution lib) : (if status ≠ .OK then do terminate; pure ⟨status, []⟩
      else verdict : Calls (Solution lib) Result).Finishes ω sol k (fun _ _ _ ↦ True) := by
    split
    · exact .bind (finishes_terminate.mono (fun _ _ _ _ _ ↦ finishes_pure trivial))
    · refine finishes_get_bind ?_
      split
      · exact finishes_pure trivial
      · exact finishes_pure trivial
      · exact finishes_pure trivial
  unfold conclude
  cases discardRemaining with
  | false => exact hrest sol
  | true => exact .bind (finishes_modify (hrest _))

theorem ends_endCommunicate (hω : Ticking ω) :
    EndsUnflooded (endCommunicate : Calls (Solution lib) Result.Status) ω sol k
      (fun _ _ _ ↦ True) := by
  refine .bind (.always (finishes_ask (finishesIf_get_bind ?_)))
  split
  · refine .bind (.always (finishes_unfreeze.mono (fun _ _ _ _ _ ↦ ?_)))
    refine .bind ((ends_communicate hω).mono (fun _ _ _ _ _ ↦ ?_))
    exact .bind (.always (finishes_freeze.mono (fun _ _ _ _ _ ↦ .always (finishes_pure trivial))))
  · exact Finishes.always (finishes_pure trivial)

theorem ends_end (hω : Ticking ω) (discardRemaining : Bool) :
    EndsUnflooded (end' discardRemaining : Calls (Solution lib) Result) ω sol k
      (fun _ _ _ ↦ True) := by
  refine finishesIf_get_bind (.bind (.always (finishes_assert (fun _ ↦ .scopeExit (.bind ?_)))))
  exact (ends_endCommunicate hω).mono (fun _ _ _ _ _ ↦ .always (finishes_conclude _ _))

end Finishes

section Flood

theorem halts_handleChunk {tokenizer tokenizer' : lib.Instance} {buf : Bytes} {n : ℕ}
    (htok : sol.tokenizer = some tokenizer)
    (hcall : lib.call tokenizer buf = .ok (⟨.CONTINUE, n⟩, tokenizer')) :
    (handleChunk buf).Halts ω sol k (fun o s' k' ↦ o = .returned () ∧
      s'.tokenizerStatus = .CONTINUE ∧ s'.tokenizer = some tokenizer' ∧ k' = k) := by
  refine Halts.bind (Halts.bind (halts_get ?_))
  simp only [htok, hcall]
  refine Halts.bind (halts_modify (halts_pure (Halts.bind (halts_modify ?_))))
  exact halts_modify ⟨rfl, rfl, rfl, rfl⟩

theorem diverges_readLoop (h : Flooded ω sol k) :
    (readLoop : Calls (Solution lib) Unit).Diverges ω sol k := by
  obtain ⟨hcontinue, state, htok, htakes⟩ := h
  refine Diverges.loop (fun _ s' k' ↦ s'.tokenizerStatus = .CONTINUE ∧
    ∃ n, k' = k + n ∧ s'.tokenizer = some (state n)) ⟨hcontinue, 0, rfl, htok⟩ ?_
  intro _ s' k' hI
  obtain ⟨hstatus, n, rfl, htok'⟩ := hI
  obtain ⟨buf, count, hread, hne, hcall⟩ := htakes n
  right
  refine Halts.bind (halts_get ?_)
  simp only [hstatus, ne_eq, not_true_eq_false, if_false]
  refine Halts.bind (halts_ask ?_)
  simp only [hread]
  refine Halts.bind ((halts_handleChunk htok' hcall).mono ?_)
  intro o s'' k'' _ ho
  obtain ⟨rfl, hstatus', htok'', rfl⟩ := ho
  exact halts_pure ⟨(), rfl, hstatus', n + 1, rfl, htok''⟩

/-- The clock counts the calls, and from the seventh call on every call is a `read` of what
`answers` has in store. -/
def flood (outFd : Fd) (answers : ℕ → Answer) : Stream Answer where
  symbol n :=
    { now := n
      epollWait := .ok [{ fd := outFd, EPOLLIN := true }]
      read := (answers (n - 7)).read }
  length := ⊤

theorem ticking_flood (outFd : Fd) (answers : ℕ → Answer) : Ticking (flood outFd answers) :=
  ⟨Int.le_refl 0, fun k ↦ Int.le_of_eq (Int.natCast_succ k).symm⟩

theorem halts_poll_flood (outFd : Fd) (answers : ℕ → Answer) {untilPoint : Int}
    (huntil : 4 < untilPoint) :
    (poll untilPoint ([], 4)).Halts (flood outFd answers) sol 5 (fun o s' k' ↦
      o = .returned ([{ fd := outFd, EPOLLIN := true }], 6) ∧ s' = sol ∧ k' = 7) := by
  refine Halts.loop_rank (fun _ _ k' ↦ 7 - k') (fun b s' k' ↦ s' = sol ∧
    (b = ([], 4) ∧ k' = 5 ∨ b = ([{ fd := outFd, EPOLLIN := true }], 6) ∧ k' = 7))
    ⟨rfl, .inl ⟨rfl, rfl⟩⟩ ?_
  intro b s' k' hI
  obtain ⟨rfl, hb⟩ := hI
  rcases hb with ⟨rfl, rfl⟩ | ⟨rfl, rfl⟩
  · dsimp only
    rw [if_pos ⟨rfl, huntil⟩]
    refine Halts.bind (Halts.bind (halts_ask (halts_pure ?_)))
    exact Halts.bind (halts_ask (halts_pure ⟨⟨rfl, .inr ⟨rfl, rfl⟩⟩, by decide⟩))
  · dsimp only
    rw [if_neg (by simp)]
    exact halts_pure ⟨rfl, rfl, rfl⟩

theorem diverges_communicate {tokenizer : lib.Instance} (hflood : lib.Floodable tokenizer)
    (htok : sol.tokenizer = some tokenizer) (hfds : sol.process.inFd ≠ sol.process.outFd)
    (hcontinue : sol.tokenizerStatus = .CONTINUE)
    (hlimit : ¬ Expired sol.resourceLimits) :
    ∃ ω, Ticking ω ∧
      (communicate : Calls (Solution lib) Result.Status).Diverges ω sol 0 := by
  obtain ⟨state, rfl, hfeeds⟩ := hflood
  choose answers htakes using hfeeds
  refine ⟨flood sol.process.outFd answers, ticking_flood _ _, diverges_get_bind ?_⟩
  rw [assert, if_pos (by simp [htok]), pure_bind]
  refine diverges_ask_bind ?_
  simp only [epollCreate1, epollCtlAdd, bind_assoc]
  refine diverges_ask_bind (diverges_ask_bind (diverges_ask_bind ?_))
  refine Diverges.loop (fun _ s' k' ↦ s' = sol ∧ k' = 4) ⟨rfl, rfl⟩ ?_
  intro _ s' k' hI
  obtain ⟨rfl, rfl⟩ := hI
  left
  refine diverges_get_bind ?_
  simp only [hcontinue, ne_eq, not_true_eq_false, if_false]
  refine diverges_ask_bind (Halts.bind_diverges ?_)
  refine (halts_poll_flood _ _ (lt_deadline hlimit)).mono ?_
  intro o s'' k'' _ ho
  obtain ⟨rfl, rfl, rfl⟩ := ho
  refine ⟨_, rfl, ?_⟩
  dsimp only
  rw [if_neg (by simp)]
  refine Diverges.bind (diverges_get_bind ?_) _
  rw [if_neg hfds.symm, if_pos rfl]
  refine Diverges.bind ?_ _
  rw [handleReadEnd_eq, if_neg (by simp)]
  refine Diverges.bind (diverges_readLoop ⟨hcontinue, state, htok, fun n ↦ ?_⟩) _
  obtain ⟨buf, count, hread, htake⟩ := htakes n
  refine ⟨buf, count, ?_, htake⟩
  simpa [flood, Answer.readUpTo] using hread

theorem EndsUnflooded.ends_iff {α : Type} {m : Calls (Solution lib) α}
    {R : α → Solution lib → ℕ → Prop} (h : EndsUnflooded m ω sol k R) :
    (∃ n, (m.run sol (ω.slice k n)).outcome ≠ .pending) ↔ Unflooded m ω sol k := by
  constructor
  · intro hends sol' k' henters hflooded
    obtain ⟨n, hn⟩ := hends
    exact hn (henters.diverges (diverges_readLoop hflooded) n)
  · exact fun hdry ↦ (h hdry).halts

end Flood

end Solution

namespace BrokerImpl

theorem solution_outcome {α : Type} {b : BrokerImpl lib} {id : SolutionId}
    (hsol : b.solutions[id.toNat]? = some sol) (m : Calls (Solution lib) α) (env : List Answer) :
    ((solution id m).run b env).outcome = (m.run sol env).outcome := by
  unfold solution solutionAt
  rw [run_focus (s := b) (t := sol) hsol]

/-- With an environment whose clock ticks, `communicate` comes to an end exactly if it does
not begin to read where an endless flood lies ahead. -/
theorem communicate_ends_iff {b : BrokerImpl lib} {id : SolutionId}
    (hω : Ticking ω) (hsol : b.solutions[id.toNat]? = some sol) :
    (∃ n, ((solution id Solution.communicate).run b (ω.slice 0 n)).outcome ≠ .pending) ↔
      Solution.Unflooded Solution.communicate ω sol 0 := by
  simp only [solution_outcome hsol]
  exact (Solution.ends_communicate hω).ends_iff

def begun : List Exchange × BrokerImpl SplitChar.library :=
  (ready Options.single : BrokerImpl SplitChar.library).replay [(.begin₁ 0, [{}])]

def begunSolution : Solution SplitChar.library :=
  { (Solution.ofProcess ⟨4, 5, 10⟩ : Solution SplitChar.library) with
    tokenizer := some (⟨10⟩ : SplitChar) }

theorem begun_solution : begun.2.solutions[(0 : SolutionId).toNat]? = some begunSolution := rfl

def spelling : Stream Answer where
  symbol n :=
    { now := n
      epollWait := .ok [{ fd := 5, EPOLLIN := true }]
      read := .ok (if n < 9 then [120] else [10]) }
  length := ⊤

theorem communicate_ends_iff_spelling :
    (∃ n, ((solution 0 Solution.communicate).run begun.2 (spelling.slice 0 n)).outcome ≠
      .pending) ∧ Solution.Unflooded Solution.communicate spelling begunSolution 0 := by
  have hticking : Ticking spelling :=
    ⟨Int.le_refl 0, fun k ↦ Int.le_of_eq (Int.natCast_succ k).symm⟩
  have hends : ∃ n, ((solution 0 Solution.communicate).run begun.2 (spelling.slice 0 n)).outcome ≠
      .pending := ⟨10, by decide⟩
  exact ⟨hends, (communicate_ends_iff hticking begun_solution).mp hends⟩

theorem splitChar_floodable : SplitChar.library.Floodable (⟨10⟩ : SplitChar) :=
  ⟨fun _ ↦ ⟨10⟩, rfl, fun _ ↦ ⟨{ read := .ok [120] }, [120], 1, rfl, by decide, rfl⟩⟩

theorem communicate_flooded :
    Path Answers (ready Options.single) begun.1 begun.2 ∧
      ∃ ω, Ticking ω ∧ ∀ n,
        ((solution 0 Solution.communicate).run begun.2 (ω.slice 0 n)).outcome = .pending := by
  refine ⟨replay_path _ _ (by decide), ?_⟩
  have hlimit : ¬ Expired begunSolution.resourceLimits := by
    unfold Expired
    decide
  have htok : begunSolution.tokenizer = some (⟨10⟩ : SplitChar) := rfl
  obtain ⟨ω, hω, hdiv⟩ :=
    Solution.diverges_communicate splitChar_floodable htok (by decide) rfl hlimit
  refine ⟨ω, hω, fun n ↦ ?_⟩
  rw [solution_outcome begun_solution]
  exact hdiv n

end BrokerImpl

end FlowctlGame
