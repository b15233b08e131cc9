import FlowctlGame.Crash
import FlowctlGame.Input
import FlowctlGame.Turns

namespace FlowctlGame

open Interaction Program Unistd Broker

variable {lib : TokenizerLibrary} {sol sol' : Solution lib} {tr : List Event}

/-- A system call fails, other than by `EAGAIN` of a `read` or a `write`. -/
def Unistd.Event.Fails : Event → Prop
  | .epollCreate1 (.error _) | .epollCtlAdd _ _ (.error _) | .epollCtlDel _ (.error _)
  | .epollWait (.error _) => True
  | .read _ (.error e) => e ≠ .EAGAIN
  | .write _ _ (.error e) => e ≠ .EAGAIN
  | _ => False

def Unistd.Failure.IsException (e : Failure) : Prop := ∃ x, e = .exception x

namespace Solution

abbrev Throws {α : Type} (m : Calls (Solution lib) α) : Prop :=
  m.StopsOn Event.Fails Failure.IsException

theorem throws_throw {α : Type} (x : Exception) : Throws (throw x : Calls (Solution lib) α) :=
  stopsOn_raise _

theorem throws_assert (p : Prop) [Decidable p] (msg : String) :
    Throws (assert p msg : Calls (Solution lib) Unit) := by
  unfold assert
  split
  · exact stopsOn_pure ()
  · exact stopsOn_raise _

theorem throws_checked {α : Type} {call : String} {reply : Answer → Except Errno α}
    {event : Except Errno α → Event} (h : ∀ a, ¬ (event (.ok a)).Fails) :
    Throws (ask reply event >>= checked call : Calls (Solution lib) α) := by
  refine stopsOn_ask_bind (fun r hfails ↦ ?_) (fun r ↦ ?_)
  · cases r with
    | ok a => exact absurd hfails (h a)
    | error e => exact ⟨_, rfl, _, rfl⟩
  · cases r with
    | ok a => exact stopsOn_pure a
    | error e => exact throws_throw _

theorem throws_clockNow : Throws (clockNow : Calls (Solution lib) Int) :=
  fun s ↦ by simp [clockNow, Event.Fails]

theorem throws_epollCreate1 : Throws (epollCreate1 : Calls (Solution lib) Unit) :=
  throws_checked (fun _ ↦ id)

theorem throws_epollCtlAdd (fd : Fd) (ev : EpollEvent) :
    Throws (epollCtlAdd fd ev : Calls (Solution lib) Unit) :=
  throws_checked (fun _ ↦ id)

theorem throws_epollCtlDel (fd : Fd) : Throws (epollCtlDel fd : Calls (Solution lib) Unit) :=
  throws_checked (fun _ ↦ id)

theorem throws_epollWait : Throws (epollWait : Calls (Solution lib) (List EpollEvent)) :=
  throws_checked (fun _ ↦ id)

theorem throws_poll (untilPoint : Int) (b : List EpollEvent × Int) :
    Throws (poll untilPoint b : Calls (Solution lib) (List EpollEvent × Int)) := by
  refine StopsOn.loop (fun b ↦ ?_) b
  obtain ⟨events, now⟩ := b
  dsimp only
  split
  · exact throws_epollWait.bind (fun _ ↦ throws_clockNow.bind (fun _ ↦ stopsOn_pure _))
  · exact stopsOn_pure _

theorem throws_writeLoop : Throws (writeLoop : Calls (Solution lib) Unit) := by
  refine StopsOn.loop (fun _ ↦ stopsOn_get_bind (fun sol ↦ ?_)) ()
  split
  · exact stopsOn_pure _
  · refine stopsOn_ask_bind (fun r hfails ↦ ?_) (fun r ↦ ?_)
    · rcases r with (_ | _ | e) | size
      · exact absurd rfl hfails
      · exact ⟨_, rfl, _, rfl⟩
      · exact ⟨_, rfl, _, rfl⟩
      · exact hfails.elim
    · rcases r with (_ | _ | e) | size
      · exact stopsOn_pure _
      · exact throws_throw _
      · exact throws_throw _
      · exact (stopsOn_modify _).bind (fun _ ↦ stopsOn_pure _)

theorem throws_handleWriteEnd (ev : EpollEvent) :
    Throws (handleWriteEnd ev : Calls (Solution lib) Unit) := by
  refine stopsOn_get_bind (fun sol ↦ ?_)
  split
  · exact throws_epollCtlDel _
  · refine (throws_assert _ _).bind (fun _ ↦ ?_)
    split
    · exact stopsOn_pure ()
    · refine throws_writeLoop.bind (fun _ ↦ stopsOn_get_bind (fun sol ↦ ?_))
      split
      · exact throws_epollCtlDel _
      · exact stopsOn_pure ()

theorem throws_callTokenizer (data : Bytes) :
    Throws (callTokenizer data : Calls (Solution lib) Tokenizer.Result) := by
  refine stopsOn_get_bind (fun sol ↦ ?_)
  cases sol.tokenizer with
  | none => exact stopsOn_raise _
  | some tokenizer =>
    dsimp only
    cases lib.call tokenizer data with
    | error msg => exact stopsOn_raise _
    | ok r => exact (stopsOn_modify _).bind (fun _ ↦ stopsOn_pure _)

theorem throws_handleChunk (buf : Bytes) :
    Throws (handleChunk buf : Calls (Solution lib) Unit) := by
  refine (throws_callTokenizer buf).bind (fun r ↦ (stopsOn_modify _).bind (fun _ ↦ ?_))
  cases r.status with
  | FAIL => exact stopsOn_get_bind (fun sol ↦ throws_epollCtlDel _)
  | CONTINUE => exact stopsOn_modify _
  | ACCEPTED => exact stopsOn_modify _

theorem throws_readLoop : Throws (readLoop : Calls (Solution lib) Unit) := by
  refine StopsOn.loop (fun _ ↦ stopsOn_get_bind (fun sol ↦ ?_)) ()
  split
  · exact stopsOn_pure _
  · refine stopsOn_ask_bind (fun r hfails ↦ ?_) (fun r ↦ ?_)
    · rcases r with (_ | _ | e) | buf
      · exact absurd rfl hfails
      · exact ⟨_, rfl, _, rfl⟩
      · exact ⟨_, rfl, _, rfl⟩
      · exact hfails.elim
    · rcases r with (_ | _ | e) | _ | ⟨x, buf⟩
      · exact stopsOn_pure _
      · exact throws_throw _
      · exact throws_throw _
      · exact stopsOn_pure _
      · exact (throws_handleChunk _).bind (fun _ ↦ stopsOn_pure _)

theorem throws_handleReadEnd (ev : EpollEvent) :
    Throws (handleReadEnd ev : Calls (Solution lib) (Option Result.Status)) := by
  rw [handleReadEnd_eq]
  split
  · exact stopsOn_pure _
  · exact throws_readLoop.bind (fun _ ↦ stopsOn_pure _)

theorem throws_handleEvents (events : List EpollEvent) :
    Throws (handleEvents events : Calls (Solution lib) (Option Result.Status)) := by
  induction events with
  | nil => exact stopsOn_pure _
  | cons ev events ih =>
    refine stopsOn_get_bind (fun sol ↦ ?_)
    split
    · exact (throws_handleWriteEnd ev).bind (fun _ ↦ ih)
    · split
      · refine (throws_handleReadEnd ev).bind (fun o ↦ ?_)
        cases o with
        | none => exact ih
        | some status => exact stopsOn_pure _
      · exact ih

theorem throws_round (untilPoint : Int) (u : Unit) :
    Throws (round untilPoint u : Calls (Solution lib) (Unit ⊕ Result.Status)) := by
  refine stopsOn_get_bind (fun sol ↦ ?_)
  split
  · exact stopsOn_pure _
  · refine throws_clockNow.bind (fun now ↦ (throws_poll _ _).bind (fun polled ↦ ?_))
    obtain ⟨events, now⟩ := polled
    dsimp only
    split
    · exact stopsOn_pure _
    · refine (throws_handleEvents events).bind (fun o ↦ ?_)
      cases o with
      | none => exact stopsOn_pure _
      | some status => exact stopsOn_pure _

theorem throws_communicate : Throws (communicate : Calls (Solution lib) Result.Status) := by
  refine stopsOn_get_bind (fun sol ↦ (throws_assert _ _).bind (fun _ ↦ ?_))
  refine throws_clockNow.bind (fun start ↦ throws_epollCreate1.bind (fun _ ↦ ?_))
  refine (throws_epollCtlAdd _ _).bind (fun _ ↦ (throws_epollCtlAdd _ _).bind (fun _ ↦ ?_))
  exact StopsOn.loop (throws_round _) ()

theorem path_written (h : Path Step sol tr sol') :
    sol.inbuf = written sol.process.inFd tr ++ sol'.inbuf := by
  induction h with
  | nil => rfl
  | @cons s t _ e tr hs h ih =>
    rw [hs.process_eq] at ih
    have hstep : s.inbuf = Event.written s.process.inFd e ++ t.inbuf := by
      cases hs with
      | quiet he => cases e <;> first | rfl | exact he.elim
      | wrote hcont hin hpos hsize =>
        have hlen := List.length_take_le BUFSIZ s.inbuf
        rw [List.length_take] at hsize
        simp only [Event.written, if_true, List.take_take]
        rw [Nat.min_eq_left (by omega), List.take_append_drop]
      | writeFailed => rfl
      | readFailed => rfl
      | readNothing => rfl
      | readChunk => exact (absorb_inbuf _ _).symm
    rw [hstep, ih, ← List.append_assoc]
    rfl

/-- An `end` in which a system call fails: the solution is thawed, and nothing comes after
what `communicate` has done up to the failure. -/
inductive Broken (sol : Solution lib) : List Event → Exception → Solution lib → Prop
  | mk {t : Solution lib} {mid : List Event} {garbage : Result.Status} {thaw : Killer.Status}
      {x : Exception} (hrun : communicate.Executes sol mid (.raised (.exception x)) t) :
      Broken sol (.indeterminate garbage :: .killer .UNFREEZE sol.process.id (.ok thaw) :: mid) x
        { t with tokenizer := none }

theorem endCommunicate_failed (sol : Solution lib) :
    endCommunicate.Ensures sol (fun tr o sol' ↦ (∃ e ∈ tr, e.Fails) →
      ∃ garbage thaw mid x, o = .raised (.exception x) ∧
        tr = .indeterminate garbage :: .killer .UNFREEZE sol.process.id (.ok thaw) :: mid ∧
          communicate.Executes sol mid (.raised (.exception x)) sol') := by
  simp only [endCommunicate, indeterminate, ensures_ask_bind, ensures_get_bind]
  refine ⟨by simp, fun m ↦ ?_⟩
  split
  · simp only [unfreeze, bind_assoc, ensures_get_bind, ensures_killerRequest_bind,
      ensures_assert_bind, pure_bind]
    refine ⟨by simp [Event.Fails], fun thaw ↦ ⟨fun _ ↦ ?_, by simp [Event.Fails]⟩,
      by simp [Event.Fails]⟩
    have hrun : communicate.Ensures sol (fun tr o t ↦ communicate.Executes sol tr o t ∧
        ((∃ e ∈ tr, e.Fails) → ∃ e, o = .raised e ∧ e.IsException)) :=
      fun _ _ _ h ↦ ⟨h, throws_communicate sol _ _ _ h⟩
    refine hrun.sequence ?_ ?_ ?_
    · intro tr status t ht
      obtain ⟨-, hclean⟩ := ht
      have hno : ∀ e ∈ tr, ¬ e.Fails := by
        intro e hmem he
        obtain ⟨_, hr, -⟩ := hclean ⟨e, hmem, he⟩
        cases hr
      have hfreeze : (freeze >>= fun _ ↦ pure status).Ensures t
          (fun tr' _ _ ↦ ∀ e ∈ tr', ¬ e.Fails) := by
        simp [freeze, Event.Fails, -bind_pure_comp]
      refine hfreeze.mono (fun tr' o t' hfree hx ↦ ?_)
      obtain ⟨e, hmem, he⟩ := hx
      simp only [List.mem_cons, List.mem_append] at hmem
      rcases hmem with rfl | rfl | hmem | hmem
      · exact he.elim
      · exact he.elim
      · exact absurd he (hno e hmem)
      · exact absurd he (hfree e hmem)
    · intro tr e t ht hx
      obtain ⟨hexec, hblamed⟩ := ht
      have hfails : ∃ e ∈ tr, e.Fails := by simpa [Event.Fails] using hx
      obtain ⟨_, hr, x, rfl⟩ := hblamed hfails
      cases hr
      exact ⟨_, thaw, tr, x, rfl, rfl, hexec⟩
    · intro tr t ht hx
      obtain ⟨_, hr, -⟩ := ht.2 (by simpa [Event.Fails] using hx)
      cases hr
  · simp [Event.Fails]

theorem conclude_unfailing (sol : Solution lib) (discardRemaining : Bool)
    (status : Result.Status) :
    (conclude discardRemaining status).Ensures sol (fun tr _ _ ↦ ∀ e ∈ tr, ¬ e.Fails) := by
  have hterminate (t : Solution lib) : (terminate >>= fun _ ↦
      (pure ⟨status, []⟩ : Calls (Solution lib) Result)).Ensures t
        (fun tr _ _ ↦ ∀ e ∈ tr, ¬ e.Fails) := by
    simp [terminate, Event.Fails, -bind_pure_comp]
  have hverdict (t : Solution lib) : verdict.Ensures t (fun tr _ _ ↦ ∀ e ∈ tr, ¬ e.Fails) := by
    simp only [verdict, ensures_get_bind]
    cases t.tokenizerStatus <;> simp
  by_cases hs : status = .OK
  · cases discardRemaining <;> simp [conclude, hs, hverdict]
  · cases discardRemaining with
    | false =>
      simp only [conclude, hs, ne_eq, not_false_eq_true, if_true, Bool.false_eq_true, if_false]
      exact hterminate sol
    | true =>
      simp only [conclude, hs, ne_eq, not_false_eq_true, if_true, ensures_modify_bind]
      exact hterminate _

theorem end_failed (sol : Solution lib) (discardRemaining : Bool) :
    (end' discardRemaining).Ensures sol (fun tr o sol' ↦ (∃ e ∈ tr, e.Fails) →
      ∃ x, o = .raised (.exception x) ∧ Broken sol tr x sol') := by
  simp only [end', ensures_get_bind, ensures_assert_bind]
  refine ⟨fun _ ↦ ?_, by simp⟩
  apply Ensures.scopeExit
  refine (endCommunicate_failed sol).sequence ?_ ?_ ?_
  · intro tr status t hclean
    refine (conclude_unfailing t discardRemaining status).mono (fun tr' o t' hfree ↦ ?_)
    have hno : ¬ ∃ e ∈ tr ++ tr', e.Fails := by
      intro hx
      obtain ⟨e, hmem, he⟩ := hx
      rcases List.mem_append.mp hmem with hmem | hmem
      · obtain ⟨_, _, _, _, hr, -⟩ := hclean ⟨e, hmem, he⟩
        cases hr
      · exact hfree e hmem he
    cases o <;> exact fun hx ↦ absurd hx hno
  · intro tr e t h hx
    obtain ⟨garbage, thaw, mid, x, hr, rfl, hrun⟩ := h hx
    cases hr
    exact ⟨x, rfl, .mk hrun⟩
  · intro tr t h hx
    obtain ⟨_, _, _, _, hr, -⟩ := h hx
    cases hr

end Solution

namespace BrokerImpl

variable {b b' : BrokerImpl lib} {x : Exchange} {id : SolutionId} {discardRemaining : Bool}

/-- The solution is stopped after an `end` that was left by an exception. The killer requests
that name it are those of `past`. -/
structure LeftStopped (b b' : BrokerImpl lib) (id : SolutionId) (discardRemaining : Bool)
    (past : List Event) (sol' : Solution lib) : Prop where
  inactive : sol'.tokenizer = none
  stopped : ∃ act, lastRequest sol'.process.id past = some act ∧ act ≠ .UNFREEZE
  discarded : discardRemaining = true → sol'.inbuf = []
  frame : ∀ j, j ≠ id.toNat → b'.solutions[j]? = b.solutions[j]?

theorem lastRequest_communicate {o : Outcome Failure Result.Status} (pid : Killer.Id)
    (h : Solution.communicate.Executes sol tr o sol') : lastRequest pid tr = none := by
  have hpath := (Solution.communicate_spec sol _ _ _ h).1
  rw [lastRequest, List.getLast?_eq_none_iff, List.filterMap_eq_nil_iff]
  intro e hmem
  cases e with
  | killer act id' r => exact absurd hmem (Solution.path_killer hpath)
  | _ => rfl

theorem run_end_failed {o : Outcome Failure (Option Result)}
    (hsol : b.solutions[id.toNat]? = some sol)
    (hx : (run (.end' id discardRemaining)).Executes b tr o b') (hfails : ∃ e ∈ tr, e.Fails) :
    ∃ sol' e, b' = { b with solutions := b.solutions.set id.toNat sol' } ∧
      o = .raised (.exception e) ∧ sol.Broken tr e sol' := by
  have hend : (solution id (Solution.end' discardRemaining)).Ensures b (fun tr o b' ↦
      (∃ e ∈ tr, e.Fails) → ∃ sol' e, b' = { b with solutions := b.solutions.set id.toNat sol' } ∧
        o = .raised (.exception e) ∧ sol.Broken tr e sol') := by
    refine (solution_spec b id).mono (fun tr o b' h hfails ↦ ?_)
    obtain ⟨sol₀, sol', hsol₀, hrun, hb⟩ | ⟨hnone, -⟩ := h
    · obtain rfl : sol = sol₀ := Option.some.inj (hsol.symm.trans hsol₀)
      obtain ⟨e, ho, hbroken⟩ := Solution.end_failed sol discardRemaining _ _ _ hrun hfails
      exact ⟨sol', e, hb, ho, hbroken⟩
    · rw [hsol] at hnone
      cases hnone
  have hrun : (run (.end' id discardRemaining)).Ensures b (fun tr o b' ↦
      (∃ e ∈ tr, e.Fails) → ∃ sol' e, b' = { b with solutions := b.solutions.set id.toNat sol' } ∧
        o = .raised (.exception e) ∧ sol.Broken tr e sol') := by
    refine hend.sequence ?_ ?_ ?_
    · intro tr result t h
      rw [ensures_pure, List.append_nil]
      intro hfails
      obtain ⟨_, _, _, hr, -⟩ := h hfails
      cases hr
    · intro tr e t h hfails
      obtain ⟨sol', e', hb, hr, hbroken⟩ := h hfails
      cases hr
      exact ⟨sol', e', hb, rfl, hbroken⟩
    · intro tr t h hfails
      obtain ⟨_, _, _, hr, -⟩ := h hfails
      cases hr
  exact hrun tr o b' hx hfails

/-- A system call fails in `end`: the solution stays thawed and the input that it was not
given stays in `inbuf`, though it counts as inactive. -/
theorem failing_end_leaves_thawed (past : List Event) (hx : Serves b x b')
    (hc : x.command = .end' id discardRemaining) (hsol : b.solutions[id.toNat]? = some sol)
    (hfails : ∃ e ∈ x.trace, e.Fails) :
    (∃ e, x.outcome = .raised (.exception e)) ∧ ∃ sol', b'.solutions[id.toNat]? = some sol' ∧
      ¬ LeftStopped b b' id discardRemaining (past ++ x.trace) sol' ∧
        sol'.tokenizer = none ∧ (∀ j, j ≠ id.toNat → b'.solutions[j]? = b.solutions[j]?) ∧
          lastRequest sol'.process.id (past ++ x.trace) = some .UNFREEZE ∧
            sol.inbuf = written sol.process.inFd x.trace ++ sol'.inbuf := by
  have hframe : ∀ j, j ≠ id.toNat → b'.solutions[j]? = b.solutions[j]? :=
    fun j hj ↦ serves_frame hx (by rw [hc]; exact hj)
  obtain ⟨command, outcome, tr⟩ := x
  obtain rfl : command = .end' id discardRemaining := hc
  obtain ⟨sol', e, hb, ho, hbroken⟩ := run_end_failed hsol hx hfails
  have hsol' : b'.solutions[id.toNat]? = some sol' := by
    rw [hb]
    exact List.getElem?_set_self (List.getElem?_eq_some_iff.mp hsol).1
  obtain @⟨t, mid, garbage, thaw, _, hrun⟩ := hbroken
  have hpath := (Solution.communicate_spec sol _ _ _ hrun).1
  have hlast : lastRequest t.process.id (past ++ .indeterminate garbage ::
      .killer .UNFREEZE sol.process.id (.ok thaw) :: mid) = some .UNFREEZE := by
    rw [lastRequest_append, lastRequest_cons, lastRequest_cons, lastRequest_communicate _ hrun,
      Solution.path_process_eq hpath]
    simp [Event.request]
  have hunsent := Solution.path_written hpath
  refine ⟨⟨e, ho⟩, _, hsol', fun hstopped ↦ ?_, rfl, hframe, hlast, hunsent⟩
  obtain ⟨act, hact, hne⟩ := hstopped.stopped
  exact hne (Option.some.inj (hact.symm.trans hlast))

/-- The message `x` waits for the solution, and no descriptor is left for `epoll_create1`. -/
def endWithoutEpoll : Execution Event (BrokerImpl SplitChar.library) Failure (Option Result) :=
  (run (.end' 0 true)).run messageWaiting.2
    (List.replicate 4 { epollCreate1 := .error (.other 24) })

def toldBefore : List Event :=
  [.killer .FREEZE 10 (.ok .OK)] ++ nonblocking 4 0 ++ nonblocking 5 0 ++
    messageWaiting.1.flatMap (·.trace)

theorem endWithoutEpoll_trace : endWithoutEpoll.trace =
    [.indeterminate .OK, .killer .UNFREEZE 10 (.ok .OK), .now 0,
      .epollCreate1 (.error (.other 24))] := rfl

theorem failing_end_leaves_thawed_without_epoll :
    ∃ sol', endWithoutEpoll.state.solutions[(0 : SolutionId).toNat]? = some sol' ∧
      sol'.tokenizer = none ∧
        lastRequest sol'.process.id (toldBefore ++ endWithoutEpoll.trace) = some .UNFREEZE := by
  have hx : Serves messageWaiting.2 ⟨.end' 0 true, _, endWithoutEpoll.trace⟩ _ :=
    executes_run (run (.end' 0 true)) messageWaiting.2 _
  have hsol : ∃ sol, messageWaiting.2.solutions[(0 : SolutionId).toNat]? = some sol := ⟨_, rfl⟩
  obtain ⟨sol, hsol⟩ := hsol
  have hfails : ∃ e ∈ endWithoutEpoll.trace, e.Fails :=
    ⟨.epollCreate1 (.error (.other 24)), by simp [endWithoutEpoll_trace], trivial⟩
  obtain ⟨-, sol', hsol', -, htok, -, hlast, -⟩ :=
    failing_end_leaves_thawed toldBefore hx rfl hsol hfails
  exact ⟨sol', hsol', htok, hlast⟩

/-- The solution was frozen when its turn came and is left running, its message undelivered
and not discarded. -/
theorem end_fails_without_freezing :
    Started Options.single
        ([.killer .FREEZE 10 (.ok .OK)] ++ nonblocking 4 0 ++ nonblocking 5 0)
        (ready Options.single : BrokerImpl SplitChar.library) ∧
      Path Answers (ready Options.single) messageWaiting.1 messageWaiting.2 ∧
        Serves messageWaiting.2 ⟨.end' 0 true, endWithoutEpoll.outcome, endWithoutEpoll.trace⟩
          endWithoutEpoll.state ∧
        endWithoutEpoll.outcome =
          .raised (.exception (.systemError "epoll_create1" (.other 24))) ∧
        ∃ sol', endWithoutEpoll.state.solutions[(0 : SolutionId).toNat]? = some sol' ∧
          lastRequest 10 (toldBefore ++ endWithoutEpoll.trace) = some .UNFREEZE ∧
            sol'.inbuf = [120] ∧
              ¬ LeftStopped messageWaiting.2 endWithoutEpoll.state 0 true
                (toldBefore ++ endWithoutEpoll.trace) sol' := by
  refine ⟨single_started, replay_path _ _ (by decide), executes_run _ _ _, rfl, _, rfl, ?_, rfl, ?_⟩
  · rw [endWithoutEpoll_trace]
    rfl
  · intro hstopped
    have hkept := hstopped.discarded rfl
    cases hkept

end BrokerImpl

end FlowctlGame
