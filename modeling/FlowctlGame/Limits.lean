import FlowctlGame.Alongside
import FlowctlGame.Session
import FlowctlGame.Interaction.Taking

namespace FlowctlGame

open Interaction Program Unistd Broker

variable {lib : TokenizerLibrary} {α β : Type}

namespace Solution

/-- One iteration of a solution. -/
def iteration (argument : TokenizerArgument) (limits : ResourceLimits) (msgs : List Bytes)
    (discardRemaining : Bool) : Calls (Solution lib) Result := do
  begin argument limits
  msgs.forM send
  Solution.end' discardRemaining

def attempt (argument : TokenizerArgument) (limits : ResourceLimits) (msgs : List Bytes) :
    Calls (Solution lib) Result.Status := do
  begin argument limits
  msgs.forM send
  awaitVerdict

variable {d : Int} {P : ResourceLimits → ResourceLimits → Prop} {sol sol' : Solution lib}
  {env : List Answer} {start : Int} {limits limits' : ResourceLimits}
  {argument : TokenizerArgument} {msgs : List Bytes} {discardRemaining : Bool}

theorem follows_sends (h : (alongside (.refl lib) d P).state sol sol') :
    Follows (alongside (.refl lib) d P) id (msgs.forM send) (msgs.forM send) sol sol' env := by
  induction msgs generalizing sol sol' env with
  | nil => exact follows_pure h
  | cons msg msgs ih => exact (follows_send h).bind (fun _ _ _ h ↦ ih h)

theorem sends_spec (sol : Solution lib) (msgs : List Bytes) :
    (msgs.forM send).Ensures sol (fun tr o sol' ↦ o = .returned PUnit.unit →
      tr = [] ∧ ∃ inbuf, sol' = { sol with inbuf := inbuf }) := by
  induction msgs generalizing sol with
  | nil => simpa using ⟨sol.inbuf, rfl⟩
  | cons msg msgs ih =>
    refine (send_spec sol msg).sequence (fun tr _ t h ↦ ?_) ?_ ?_
    · obtain ⟨-, rfl, rfl⟩ := h rfl
      exact ih _
    · exact fun _ _ _ _ h ↦ by cases h
    · exact fun _ _ _ h ↦ by cases h

theorem later_zero : Answer.later 0 = id := by
  funext m
  simp [Answer.later]

theorem event_later_zero : Event.later 0 = id := by
  funext e
  cases e <;> simp [Event.later]

def Extends (start : Int) (limits limits' : ResourceLimits) : Prop :=
  deadline start limits.realTimeLimit ≤ deadline start limits'.realTimeLimit

theorem follows_iteration (hlimits : Extends start limits limits')
    (hfirst : ∀ t, firstReading ((attempt argument limits msgs).run sol env).trace = some t →
      t = start)
    (hverdict : ((attempt argument limits msgs).run sol env).outcome ≠
      .returned .REAL_TIME_LIMIT_EXCEEDED) :
    Follows (alongside (.refl lib) 0 (Extends start)) id
      (iteration argument limits msgs discardRemaining)
      (iteration argument limits' msgs discardRemaining) sol sol env := by
  have h : (alongside (.refl lib) 0 (Extends start)).state sol sol :=
    ⟨sol.resourceLimits, le_rfl, fits_refl sol, (recast_self sol).symm⟩
  refine (follows_begin trivial hlimits h).bind (fun _ sol₁' ho h ↦ ?_)
  have hbegin : firstReading ((begin argument limits).run sol env).trace = none := by
    rw [(ensures_iff_run.mp (begin_spec sol argument limits) env ho).2.1]
    rfl
  rw [attempt, outcome_bind ho] at hverdict
  rw [attempt, trace_bind ho, firstReading_append_right hbegin] at hfirst
  refine (follows_sends h).bind (fun _ sol₂' ho h ↦ ?_)
  have hsends : firstReading ((msgs.forM send).run ((begin argument limits).run sol env).state
      (env.drop ((begin argument limits).run sol env).trace.length)).trace = none := by
    rw [(ensures_iff_run.mp (sends_spec _ msgs) _ ho).1]
    rfl
  rw [outcome_bind ho] at hverdict
  rw [trace_bind ho, firstReading_append_right hsends] at hfirst
  obtain ⟨limits₂, hP, -, rfl⟩ := alongside_cases h
  refine follows_end h (fun t ht ↦ ?_)
  obtain rfl := hfirst t ht
  rw [add_zero, add_zero]
  exact ⟨hP, fun ho ↦ absurd ho hverdict⟩

end Solution

namespace BrokerImpl

/-- `begin`, some messages and `end`, addressed to one solution. -/
def iteration (id : SolutionId) (argument : TokenizerArgument) (limits : ResourceLimits)
    (msgs : List Bytes) (discardRemaining : Bool) : Calls (BrokerImpl lib) Result := do
  begin₃ id argument limits
  msgs.forM (fun msg ↦ solution id (Solution.send msg))
  solution id (Solution.end' discardRemaining)

def attempt (id : SolutionId) (argument : TokenizerArgument) (limits : ResourceLimits)
    (msgs : List Bytes) : Calls (BrokerImpl lib) Result.Status := do
  begin₃ id argument limits
  msgs.forM (fun msg ↦ solution id (Solution.send msg))
  solution id Solution.awaitVerdict

variable {id : SolutionId} {argument : TokenizerArgument} {limits : ResourceLimits}
  {msgs : List Bytes} {discardRemaining : Bool}

theorem solution_bind {m : Calls (Solution lib) α} {k : α → Calls (Solution lib) β} :
    (solution id m >>= fun a ↦ solution id (k a)) = solution id (m >>= k) := by
  ext b env
  cases hsol : b.solutions[id.toNat]? with
  | none =>
    rw [run_bind, run_solution_absent hsol, run_solution_absent hsol]
    rfl
  | some sol =>
    have hlt := (List.getElem?_eq_some_iff.mp hsol).1
    rw [run_bind, run_solution hsol, run_solution hsol, run_bind]
    cases ho : (m.run sol env).outcome with
    | returned a =>
      have hset : ({ b with solutions := b.solutions.set id.toNat (m.run sol env).state } :
          BrokerImpl lib).solutions[id.toNat]? = some (m.run sol env).state :=
        List.getElem?_set_self hlt
      simp only [Execution.andThen, ho, run_solution hset, List.set_set]
    | raised e => simp only [Execution.andThen, ho]
    | pending => simp only [Execution.andThen, ho]

theorem solution_sends {m : Calls (Solution lib) PUnit} {r : Calls (Solution lib) α} :
    (do solution id m
        msgs.forM (fun msg ↦ solution id (Solution.send msg))
        solution id r) =
      solution id (do m; msgs.forM Solution.send; r) := by
  induction msgs generalizing m with
  | nil => exact solution_bind
  | cons msg msgs ih =>
    have hstep := ih (m := m >>= fun _ ↦ Solution.send msg)
    rw [← solution_bind, bind_assoc, bind_assoc] at hstep
    simpa only [List.forM, bind_assoc] using hstep

theorem iteration_eq : (iteration id argument limits msgs discardRemaining :
    Calls (BrokerImpl lib) Result) =
      solution id (Solution.iteration argument limits msgs discardRemaining) :=
  solution_sends

theorem attempt_eq : (attempt id argument limits msgs :
    Calls (BrokerImpl lib) Result.Status) =
      solution id (Solution.attempt argument limits msgs) :=
  solution_sends

def relimit (b : BrokerImpl lib) (id : SolutionId) (limits : ResourceLimits) : BrokerImpl lib :=
  { b with solutions := b.solutions.modify id.toNat (·.relimit limits) }

theorem relimit_set {b : BrokerImpl lib} (sol : Solution lib) :
    ({ b with solutions := b.solutions.set id.toNat sol } : BrokerImpl lib).relimit id limits =
      { b with solutions := b.solutions.set id.toNat (sol.relimit limits) } := by
  have hmodify : (b.solutions.set id.toNat sol).modify id.toNat (·.relimit limits) =
      b.solutions.set id.toNat (sol.relimit limits) := by
    apply List.ext_getElem?
    intro i
    rw [List.getElem?_modify, List.getElem?_set, List.getElem?_set]
    by_cases hi : id.toNat = i
    · simp [hi]
    · simp [hi]
  simp only [relimit, hmodify]

/-- With the limit `l₂`, an iteration whose deadline is counted from `start` ends as it does with
`l₁`, unless `communicate` gives up with `l₁`. The states may differ in the limits that `begin`
stores. -/
def Spares (start : Int) (l₁ l₂ : Int64) : Prop :=
  ∀ (lib : TokenizerLibrary) (b : BrokerImpl lib) (id : SolutionId) (argument : TokenizerArgument)
    (userTimeLimit : Int64) (msgs : List Bytes) (discardRemaining : Bool) (env : List Answer),
    let verdict := (attempt id argument ⟨userTimeLimit, l₁⟩ msgs).run b env
    let x := (iteration id argument ⟨userTimeLimit, l₁⟩ msgs discardRemaining).run b env
    let x' := (iteration id argument ⟨userTimeLimit, l₂⟩ msgs discardRemaining).run b env
    (∀ t, firstReading verdict.trace = some t → t = start) →
    verdict.outcome ≠ .returned .REAL_TIME_LIMIT_EXCEEDED →
    x'.outcome = x.outcome ∧ x'.trace = x.trace ∧ ∃ limits, x'.state = x.state.relimit id limits

theorem spares_of_le {start : Int} {l₁ l₂ : Int64} (h : deadline start l₁ ≤ deadline start l₂) :
    Spares start l₁ l₂ := by
  intro lib b i argument userTimeLimit msgs discardRemaining env verdict x x' hfirst hverdict
  cases hsol : b.solutions[i.toNat]? with
  | none =>
    have hx : x = ⟨.raised (.abort "id < solutions_.size()"), b, []⟩ := by
      simp only [x, iteration_eq, run_solution_absent hsol]
    have hx' : x' = ⟨.raised (.abort "id < solutions_.size()"), b, []⟩ := by
      simp only [x', iteration_eq, run_solution_absent hsol]
    rw [hx, hx']
    refine ⟨rfl, rfl, {}, ?_⟩
    rw [List.getElem?_eq_none_iff] at hsol
    simp [relimit, List.modify_eq_self hsol]
  | some sol =>
    simp only [verdict, attempt_eq, run_solution hsol] at hfirst hverdict
    have hlimits : Solution.Extends start ⟨userTimeLimit, l₁⟩ ⟨userTimeLimit, l₂⟩ := h
    have hfollows : Follows (Solution.alongside (.refl lib) 0 (Solution.Extends start)) id
        (Solution.iteration argument ⟨userTimeLimit, l₁⟩ msgs discardRemaining)
        (Solution.iteration argument ⟨userTimeLimit, l₂⟩ msgs discardRemaining) sol sol env :=
      Solution.follows_iteration hlimits hfirst hverdict
    obtain ⟨hout, ⟨limits, -, -, hstate⟩, htrace⟩ := hfollows
    simp only [Solution.alongside, Solution.later_zero, Solution.event_later_zero, List.map_id,
      Outcome.map_id] at hout hstate htrace
    simp only [x, x', iteration_eq, run_solution hsol, relimit_set]
    exact ⟨hout, htrace, limits, by rw [hstate, Solution.recast_refl]⟩

end BrokerImpl

namespace Solution

variable {sol : Solution lib}

theorem takes_poll_stop {untilPoint now : Int} {events : List EpollEvent}
    (h : ¬ (events = [] ∧ now < untilPoint)) :
    (poll untilPoint (events, now)).Takes sol [] (.returned (events, now)) sol := by
  refine Takes.loop_last ?_
  dsimp only
  rw [if_neg h]
  exact takes_pure _ _

theorem takes_poll_wait {untilPoint now : Int} {events : List EpollEvent} {m m' : Answer}
    (h : now < untilPoint) (hwait : m.epollWaitUpTo = .ok events) (hne : events ≠ []) :
    (poll untilPoint ([], now)).Takes sol [m, m'] (.returned (events, m'.now)) sol := by
  have hepoll : (epollWait : Calls (Solution lib) _).Takes sol [m] (.returned events) sol := by
    refine (takes_ask _ _ m sol).bind_pure ?_
    rw [hwait]
    rfl
  change (poll untilPoint ([], now)).Takes sol ([m, m'] ++ []) _ sol
  refine Takes.loop_next ?_ (by simp) (takes_poll_stop (by simp [hne]))
  dsimp only
  rw [if_pos ⟨rfl, h⟩]
  refine hepoll.bind (Takes.bind_pure ?_ rfl)
  exact takes_ask _ _ m' sol

/-- A solution that was asked for a line, with the real-time limit `l`. -/
def asked (l : Int64) : Solution SplitChar.library where
  process := ⟨4, 5, 10⟩
  tokenizer := some (⟨10⟩ : SplitChar)
  resourceLimits := ⟨0, l⟩

theorem takes_round_late {l : Int64} {untilPoint t : Int} (h : untilPoint ≤ t) :
    (round untilPoint ()).Takes (asked l) [{ now := t }]
      (.returned (.inr .REAL_TIME_LIMIT_EXCEEDED)) (asked l) := by
  refine takes_get_bind ?_
  refine Takes.bind_silent (takes_ask _ _ _ _) ?_
  refine (takes_poll_stop (by simpa using h)).bind_silent ?_
  dsimp only
  rw [if_pos ⟨rfl, h⟩]
  exact takes_pure _ _

def arrival : Answer := { epollWait := .ok [{ fd := 5, EPOLLIN := true }] }

def line : Answer := { read := .ok [10] }

theorem takes_round_answered {l : Int64} {untilPoint t : Int} (h : t < untilPoint) :
    (round untilPoint ()).Takes (asked l) [{ now := t }, arrival, { now := t }, line]
      (.returned (.inl ())) { asked l with tokenizerStatus := .ACCEPTED, result := [10] } := by
  have hpoll : (poll untilPoint ([], t)).Takes (asked l) [arrival, { now := t }]
      (.returned ([{ fd := 5, EPOLLIN := true }], t)) (asked l) :=
    takes_poll_wait h rfl (by simp)
  have hevents : (handleEvents [{ fd := 5, EPOLLIN := true }]).Takes (asked l) [line]
      (.returned none) { asked l with tokenizerStatus := .ACCEPTED, result := [10] } := by
    refine ⟨rfl, rfl, rfl, ?_⟩
    simp
  refine takes_get_bind ?_
  refine Takes.bind (takes_ask _ _ _ _) ?_
  refine hpoll.bind ?_
  dsimp only
  rw [if_neg (by simp)]
  exact hevents.bind_pure rfl

theorem takes_communicate {l : Int64} {start : Int} {used : List Answer} {status : Result.Status}
    {sol' : Solution SplitChar.library}
    (h : (Program.loop (round (deadline start l)) ()).Takes (asked l) used (.returned status)
      sol') :
    communicate.Takes (asked l) ({ now := start } :: {} :: {} :: {} :: used) (.returned status)
      sol' := by
  refine takes_get_bind ?_
  rw [assert_isSome_bind rfl]
  have hcreate : (epollCreate1 : Calls (Solution SplitChar.library) Unit).Takes (asked l) [{}]
      (.returned ()) (asked l) := ⟨rfl, rfl, rfl, by simp⟩
  have hadd (fd : Fd) (events : EpollEvent) :
      (epollCtlAdd fd events : Calls (Solution SplitChar.library) Unit).Takes (asked l) [{}]
        (.returned ()) (asked l) := ⟨rfl, rfl, rfl, by simp⟩
  have hclock : clockNow.Takes (asked l) [{ now := start }] (.returned start) (asked l) :=
    takes_ask _ _ _ _
  refine hclock.bind ?_
  exact hcreate.bind ((hadd _ _).bind ((hadd _ _).bind h))

/-- What the environment has in store: the answer is there at `t`, the clock having read `start`
when the deadline was set. -/
def script (start t : Int) : List Answer :=
  [{}, {}, {}, { now := start }, {}, {}, {}, { now := t }, arrival, { now := t }, line, {}]

def idle : Solution SplitChar.library where
  process := ⟨4, 5, 10⟩

theorem takes_indeterminate (l : Int64) :
    indeterminate.Takes (asked l) [{}] (.returned .OK) (asked l) := takes_ask _ _ _ _

theorem takes_unfreeze (l : Int64) : unfreeze.Takes (asked l) [{}] (.returned .OK) (asked l) :=
  ⟨rfl, rfl, rfl, by simp⟩

theorem takes_awaitVerdict {l : Int64} {used : List Answer} {status : Result.Status}
    {sol' : Solution SplitChar.library}
    (h : communicate.Takes (asked l) used (.returned status) sol') :
    awaitVerdict.Takes (asked l) ({} :: {} :: used) (.returned status) sol' := by
  refine (takes_indeterminate l).bind (takes_get_bind ?_)
  exact (takes_unfreeze l).bind h

theorem takes_begin (l : Int64) : (begin [10] ⟨0, l⟩).Takes idle [{}] (.returned ()) (asked l) :=
  ⟨rfl, rfl, rfl, by simp⟩

theorem takes_attempt {l : Int64} {used : List Answer} {status : Result.Status}
    {sol' : Solution SplitChar.library}
    (h : communicate.Takes (asked l) used (.returned status) sol') :
    (attempt [10] ⟨0, l⟩ []).Takes idle ({} :: {} :: {} :: used) (.returned status) sol' :=
  (takes_begin l).bind (Takes.bind (takes_pure _ _) (takes_awaitVerdict h))

theorem takes_iteration {l : Int64} {used rest : List Answer} {m : Answer}
    {status : Result.Status} {sol' u : Solution SplitChar.library} {result : Result}
    (h : communicate.Takes (asked l) used (.returned status) sol') (hm : m.killer = .ok .OK)
    (hconclude : (conclude false status).Takes sol' rest (.returned result) u) :
    (iteration [10] ⟨0, l⟩ [] false).Takes idle ({} :: {} :: {} :: (used ++ m :: rest))
      (.returned result) { u with tokenizer := none } := by
  have hfreeze : freeze.Takes sol' [m] (.returned .OK) sol' := by
    have hrequest : (killerRequest .FREEZE sol'.process.id :
        Calls (Solution SplitChar.library) Killer.Status).Takes sol' [m] (.returned .OK) sol' := by
      refine Takes.bind_silent (takes_ask _ _ m sol') ?_
      rw [hm]
      exact takes_pure _ _
    exact takes_get_bind (hrequest.bind_silent (takes_pure _ _))
  have hend : endCommunicate.Takes (asked l) ({} :: {} :: (used ++ [m])) (.returned status)
      sol' := by
    refine (takes_indeterminate l).bind ?_
    refine takes_get_bind ((takes_unfreeze l).bind (h.bind ?_))
    exact hfreeze.bind_pure rfl
  have hends : (Solution.end' false).Takes (asked l) ({} :: {} :: (used ++ m :: rest))
      (.returned result) { u with tokenizer := none } := by
    have hboth := hend.bind hconclude
    rw [List.cons_append, List.cons_append, List.append_assoc, List.singleton_append] at hboth
    refine takes_get_bind ?_
    rw [assert_isSome_bind rfl]
    exact hboth.scopeExit
  refine (takes_begin l).bind ?_
  exact Takes.bind (takes_pure PUnit.unit _) hends

theorem takes_answered {l : Int64} {untilPoint t : Int} (h : t < untilPoint) :
    (Program.loop (round untilPoint) ()).Takes (asked l)
      [{ now := t }, arrival, { now := t }, line] (.returned .OK)
      { asked l with tokenizerStatus := .ACCEPTED, result := [10] } := by
  have hlast : (round untilPoint ()).Takes
      { asked l with tokenizerStatus := .ACCEPTED, result := [10] } [] (.returned (.inr .OK))
      { asked l with tokenizerStatus := .ACCEPTED, result := [10] } := ⟨rfl, rfl, rfl, by simp⟩
  exact (takes_round_answered h).loop_next (by simp) hlast.loop_last

theorem takes_iteration_answered {l : Int64} {start t : Int} (h : t < deadline start l) :
    (iteration [10] ⟨0, l⟩ [] false).Takes idle (script start t) (.returned ⟨.OK, [10]⟩)
      { asked l with tokenizer := none, tokenizerStatus := .ACCEPTED, result := [10] } := by
  have hconclude : (conclude false .OK).Takes
      { asked l with tokenizerStatus := .ACCEPTED, result := [10] } []
      (.returned ⟨.OK, [10]⟩) { asked l with tokenizerStatus := .ACCEPTED, result := [10] } :=
    ⟨rfl, rfl, rfl, by simp⟩
  exact takes_iteration (m := {}) (takes_communicate (takes_answered h)) rfl hconclude

theorem takes_iteration_late {l : Int64} {start t : Int} (h : deadline start l ≤ t) :
    (iteration [10] ⟨0, l⟩ [] false).Takes idle ((script start t).take 10)
      (.returned ⟨.REAL_TIME_LIMIT_EXCEEDED, []⟩)
      { asked l with tokenizer := none } := by
  have hconclude : (conclude false .REAL_TIME_LIMIT_EXCEEDED).Takes (asked l) [{ now := t }]
      (.returned ⟨.REAL_TIME_LIMIT_EXCEEDED, []⟩) { asked l with tokenizer := none } :=
    ⟨rfl, rfl, rfl, by simp⟩
  exact takes_iteration (m := arrival) (u := { asked l with tokenizer := none })
    (takes_communicate (takes_round_late h).loop_last) rfl hconclude

theorem communicate_reading {sol : Solution lib} {m : Answer} {env : List Answer}
    (htok : sol.tokenizer.isSome = true) :
    firstReading (communicate.run sol (m :: env)).trace = some m.now := by
  simp only [communicate, run_get_bind, assert_isSome_bind htok, clockNow, run_ask_bind,
    firstReading_now]

theorem firstReading_bind {α β : Type} {m : Calls (Solution lib) α}
    {f : α → Calls (Solution lib) β} {x : Answer} {a : α} (env : List Answer)
    (h : m.Takes sol [x] (.returned a) sol') (hnone : firstReading (m.run sol [x]).trace = none) :
    firstReading ((m >>= f).run sol (x :: env)).trace =
      firstReading ((f a).run sol' env).trace := by
  rw [← List.singleton_append, h.bind_run, firstReading_append_right hnone]

theorem awaitVerdict_reading (l : Int64) (m : Answer) (env : List Answer) :
    firstReading (awaitVerdict.run (asked l) ({} :: {} :: m :: env)).trace = some m.now := by
  have hcontinue : (asked l).tokenizerStatus = .CONTINUE := rfl
  rw [awaitVerdict, firstReading_bind _ (takes_indeterminate l) rfl, run_get_bind,
    if_pos hcontinue, firstReading_bind _ (takes_unfreeze l) rfl, communicate_reading rfl]

theorem attempt_reading (l : Int64) (start t : Int) :
    firstReading ((attempt [10] ⟨0, l⟩ []).run idle (script start t)).trace = some start := by
  rw [attempt, script, firstReading_bind _ (takes_begin l) rfl, List.forM, Program.pure_bind]
  exact awaitVerdict_reading l { now := start } _

theorem attempt_answered {l : Int64} {start t : Int} (h : t < deadline start l) :
    ((attempt [10] ⟨0, l⟩ []).run idle (script start t)).outcome = .returned .OK := by
  have hattempt := takes_attempt (takes_communicate (takes_answered h))
  have hrun := hattempt.run_append ((script start t).drop 11)
  exact (congrArg Execution.outcome hrun).trans hattempt.outcome

theorem iteration_late {l : Int64} {start t : Int} (h : deadline start l ≤ t) :
    ((iteration [10] ⟨0, l⟩ [] false).run idle (script start t)).outcome =
      .returned ⟨.REAL_TIME_LIMIT_EXCEEDED, []⟩ := by
  have hrun := (takes_iteration_late h).run_append ((script start t).drop 10)
  rw [List.take_append_drop] at hrun
  rw [hrun, (takes_iteration_late h).outcome]

end Solution

namespace BrokerImpl

theorem solutions_idle :
    (ready Options.single : BrokerImpl SplitChar.library).solutions[
      (0 : SolutionId).toNat]? = some Solution.idle := rfl

theorem le_of_spares {start : Int} {l₁ l₂ : Int64} (h : Spares start l₁ l₂) :
    deadline start l₁ ≤ deadline start l₂ := by
  by_contra hlt
  rw [not_le] at hlt
  have hrun := h SplitChar.library (ready Options.single) 0 [10] 0 [] false
    (Solution.script start (deadline start l₂))
  simp only [iteration_eq, attempt_eq, run_solution solutions_idle] at hrun
  have hout := (hrun (fun t ht ↦ by
    rw [Solution.attempt_reading] at ht
    exact (Option.some.inj ht).symm) (by
    rw [Solution.attempt_answered hlt]
    simp)).1
  rw [Solution.iteration_late (le_refl (deadline start l₂)),
    (Solution.takes_iteration_answered hlt).outcome] at hout
  simp at hout

/-- The larger limit never hurts exactly when it gives a deadline that is no earlier. -/
theorem spares_iff (start : Int) (l₁ l₂ : Int64) :
    Spares start l₁ l₂ ↔ deadline start l₁ ≤ deadline start l₂ :=
  ⟨le_of_spares, spares_of_le⟩

/-- One hour against the first limit, 292 years, whose deadline is no longer representable. -/
theorem larger_limit_hurts :
    (3600000 : Int64) ≤ 9223372036855 ∧
    ((attempt 0 [10] ⟨0, 3600000⟩ []).run (ready Options.single : BrokerImpl SplitChar.library)
      (Solution.script 0 1)).outcome = .returned .OK ∧
    ((iteration 0 [10] ⟨0, 3600000⟩ [] false).run
      (ready Options.single : BrokerImpl SplitChar.library)
        (Solution.script 0 1)).outcome = .returned ⟨.OK, [10]⟩ ∧
    ((iteration 0 [10] ⟨0, 9223372036855⟩ [] false).run
      (ready Options.single : BrokerImpl SplitChar.library)
        (Solution.script 0 1)).outcome = .returned ⟨.REAL_TIME_LIMIT_EXCEEDED, []⟩ := by
  have hkept : (1 : Int) < deadline 0 3600000 := by decide
  have hpast : deadline 0 9223372036855 ≤ (1 : Int) := by decide
  simp only [iteration_eq, attempt_eq, run_solution solutions_idle]
  exact ⟨by decide, Solution.attempt_answered hkept,
    (Solution.takes_iteration_answered hkept).outcome, Solution.iteration_late hpast⟩

end BrokerImpl

end FlowctlGame
