import FlowctlGame.BrokerImpl
import FlowctlGame.Interaction.Coupling

namespace FlowctlGame

open Interaction Program Unistd Broker

namespace Unistd

def Answer.later (d : Int) (m : Answer) : Answer := { m with now := m.now + d }

/-- Only clock readings have a date. -/
def Event.later (d : Int) : Event → Event
  | .now t => .now (t + d)
  | e => e

def Event.reading : Event → Option Int
  | .now t => some t
  | _ => none

/-- The first clock reading of a run, which fixes the deadline. -/
def firstReading (tr : List Event) : Option Int := tr.findSome? Event.reading

end Unistd

/-- Fed in turn, the instances of `lib'` answer as those of `lib` that they stand for. -/
structure TokenizerLibrary.Simulation (lib lib' : TokenizerLibrary) where
  forget : lib.Instance → lib'.Instance
  Admits : TokenizerArgument → Prop
  Fit : lib.Instance → Prop
  new : ∀ argument, Admits argument →
    lib'.newTokenizer argument = (lib.newTokenizer argument).map forget
  fresh : ∀ argument tokenizer, Admits argument →
    lib.newTokenizer argument = .ok tokenizer → Fit tokenizer
  call : ∀ tokenizer buf, Fit tokenizer → buf ≠ [] →
    lib'.call (forget tokenizer) buf = (lib.call tokenizer buf).map (Prod.map id forget)
  goes : ∀ tokenizer buf n tokenizer', Fit tokenizer → buf ≠ [] →
    lib.call tokenizer buf = .ok (⟨.CONTINUE, n⟩, tokenizer') → Fit tokenizer'
  what : ∀ tokenizer, lib'.what (forget tokenizer) = lib.what tokenizer

def TokenizerLibrary.Simulation.refl (lib : TokenizerLibrary) : lib.Simulation lib where
  forget := id
  Admits _ := True
  Fit _ := True
  new argument _ := by cases lib.newTokenizer argument <;> rfl
  fresh _ _ _ _ := trivial
  call tokenizer buf _ _ := by cases h : lib.call tokenizer buf <;> simp [h, Except.map]
  goes _ _ _ _ _ _ _ := trivial
  what _ := rfl

namespace Solution

variable {lib lib' : TokenizerLibrary}

def relimit (sol : Solution lib) (limits : ResourceLimits) : Solution lib :=
  { sol with resourceLimits := limits }

/-- The record of a solution with a tokenizer of the library that is simulated. -/
def recast (sol : Solution lib) (sim : lib.Simulation lib') (limits : ResourceLimits) :
    Solution lib' where
  process := sol.process
  tokenizer := sol.tokenizer.map sim.forget
  tokenizerStatus := sol.tokenizerStatus
  result := sol.result
  inbuf := sol.inbuf
  outbuf := sol.outbuf
  resourceLimits := limits

section Recast

variable (sol : Solution lib) (sim : lib.Simulation lib') (limits : ResourceLimits)

@[simp] theorem recast_process : (sol.recast sim limits).process = sol.process := rfl

@[simp] theorem recast_tokenizer :
    (sol.recast sim limits).tokenizer = sol.tokenizer.map sim.forget := rfl

@[simp] theorem recast_tokenizerStatus :
    (sol.recast sim limits).tokenizerStatus = sol.tokenizerStatus := rfl

@[simp] theorem recast_inbuf : (sol.recast sim limits).inbuf = sol.inbuf := rfl

@[simp] theorem recast_outbuf : (sol.recast sim limits).outbuf = sol.outbuf := rfl

@[simp] theorem recast_resourceLimits : (sol.recast sim limits).resourceLimits = limits := rfl

theorem recast_isSome : (sol.recast sim limits).tokenizer.isSome = sol.tokenizer.isSome :=
  Option.isSome_map

theorem recast_isNone : (sol.recast sim limits).tokenizer.isNone = sol.tokenizer.isNone :=
  Option.isNone_map

theorem recast_what :
    (sol.recast sim limits).tokenizer.bind lib'.what = sol.tokenizer.bind lib.what := by
  rw [recast_tokenizer]
  cases sol.tokenizer with
  | none => rfl
  | some tokenizer => exact sim.what tokenizer

theorem recast_refl : sol.recast (.refl lib) limits = sol.relimit limits := by
  simp [recast, relimit, TokenizerLibrary.Simulation.refl]

theorem recast_self : sol.recast (.refl lib) sol.resourceLimits = sol := recast_refl sol _

end Recast

/-- As long as the token is undecided, the tokenizer may be fed. -/
def Fits (sol : Solution lib) (sim : lib.Simulation lib') : Prop :=
  sol.tokenizerStatus = .CONTINUE → ∀ tokenizer, sol.tokenizer = some tokenizer →
    sim.Fit tokenizer

theorem fits_refl (sol : Solution lib) : sol.Fits (.refl lib) := fun _ _ _ ↦ trivial

theorem fits_of_none {sol : Solution lib} {sim : lib.Simulation lib'}
    (h : sol.tokenizer = none) : sol.Fits sim := by
  intro _ tokenizer htok
  cases h.symm.trans htok

theorem fits_of_fresh {sol : Solution lib} {sim : lib.Simulation lib'} {tokenizer : lib.Instance}
    (h : sol.tokenizer = some tokenizer) (hfit : sim.Fit tokenizer) : sol.Fits sim := by
  intro _ t ht
  obtain rfl := Option.some.inj (h.symm.trans ht)
  exact hfit

/-- The same calls `d` nanoseconds later, by a solution whose library is simulated and whose
limits may differ as `P` allows. -/
def alongside (sim : lib.Simulation lib') (d : Int)
    (P : ResourceLimits → ResourceLimits → Prop) :
    Coupling Answer Event (Solution lib) (Solution lib') where
  answer := Answer.later d
  event := Event.later d
  state sol sol' := ∃ limits, P sol.resourceLimits limits ∧ sol.Fits sim ∧
    sol' = sol.recast sim limits

variable {sim : lib.Simulation lib'} {d : Int} {P : ResourceLimits → ResourceLimits → Prop}
  {α β : Type} {sol : Solution lib} {sol' : Solution lib'} {env : List Answer}

theorem follows_assert {p : Prop} [Decidable p] {msg : String}
    (h : (alongside sim d P).state sol sol') :
    Follows (alongside sim d P) id (assert p msg) (assert p msg) sol sol' env := by
  unfold assert
  split
  · exact follows_pure h
  · exact follows_raise h

theorem follows_checked {call : String} {r : Except Errno α}
    (h : (alongside sim d P).state sol sol') :
    Follows (alongside sim d P) id (checked call r) (checked call r) sol sol' env := by
  cases r with
  | ok a => exact follows_pure h
  | error e => exact follows_raise h

theorem follows_call {reply : Answer → α} {event : α → Event}
    (h : (alongside sim d P).state sol sol') (hreply : ∀ m, reply (m.later d) = reply m)
    (hevent : ∀ a, (event a).later d = event a) :
    Follows (alongside sim d P) id (Program.ask reply event : Calls (Solution lib) α)
      (Program.ask reply event) sol sol' env :=
  follows_ask h hreply (fun a ↦ (hevent a).symm)

theorem follows_clockNow (h : (alongside sim d P).state sol sol') :
    Follows (alongside sim d P) (· + d) clockNow clockNow sol sol' env :=
  follows_ask h (fun _ ↦ rfl) (fun _ ↦ rfl)

theorem follows_epollCreate1 (h : (alongside sim d P).state sol sol') :
    Follows (alongside sim d P) id epollCreate1 epollCreate1 sol sol' env := by
  refine (follows_call h (fun _ ↦ rfl) (fun _ ↦ rfl)).bind (fun _ _ _ h ↦ ?_)
  exact follows_checked h

theorem follows_epollCtlAdd {fd : Fd} {events : EpollEvent}
    (h : (alongside sim d P).state sol sol') :
    Follows (alongside sim d P) id (epollCtlAdd fd events) (epollCtlAdd fd events)
      sol sol' env := by
  refine (follows_call h (fun _ ↦ rfl) (fun _ ↦ rfl)).bind (fun _ _ _ h ↦ ?_)
  exact follows_checked h

theorem follows_epollCtlDel {fd : Fd} (h : (alongside sim d P).state sol sol') :
    Follows (alongside sim d P) id (epollCtlDel fd) (epollCtlDel fd) sol sol' env := by
  refine (follows_call h (fun _ ↦ rfl) (fun _ ↦ rfl)).bind (fun _ _ _ h ↦ ?_)
  exact follows_checked h

theorem follows_epollWait (h : (alongside sim d P).state sol sol') :
    Follows (alongside sim d P) id epollWait epollWait sol sol' env := by
  refine (follows_call h (fun _ ↦ rfl) (fun _ ↦ rfl)).bind (fun _ _ _ h ↦ ?_)
  exact follows_checked h

theorem follows_killerRequest {act : Killer.Act} {process : ProcessId}
    (h : (alongside sim d P).state sol sol') :
    Follows (alongside sim d P) id (killerRequest act process) (killerRequest act process)
      sol sol' env := by
  refine (follows_call h (fun _ ↦ rfl) (fun _ ↦ rfl)).bind (fun r _ _ h ↦ ?_)
  cases r with
  | ok status => exact follows_pure h
  | error e => exact follows_raise h

theorem alongside_cases (h : (alongside sim d P).state sol sol') :
    ∃ limits, P sol.resourceLimits limits ∧ sol.Fits sim ∧ sol' = sol.recast sim limits := h

theorem follows_callTokenizer {data : Bytes} {f : α → β}
    {k : Tokenizer.Result → Calls (Solution lib) α}
    {k' : Tokenizer.Result → Calls (Solution lib') β}
    (h : (alongside sim d P).state sol sol') (hcont : sol.tokenizerStatus = .CONTINUE)
    (hdata : data ≠ [])
    (hk : ∀ result t t', (alongside sim d P).state t t' →
      Follows (alongside sim d P) f (k result) (k' result) t t' env) :
    Follows (alongside sim d P) f
      (do let result ← callTokenizer data
          modify (fun sol ↦ { sol with tokenizerStatus := result.status })
          k result)
      (do let result ← callTokenizer data
          modify (fun sol ↦ { sol with tokenizerStatus := result.status })
          k' result) sol sol' env := by
  obtain ⟨limits, hP, hfit, rfl⟩ := alongside_cases h
  simp only [callTokenizer, bind_assoc]
  refine follows_get_bind ?_
  rw [recast_tokenizer]
  cases htok : sol.tokenizer with
  | none => exact follows_raise h
  | some tokenizer =>
    have hfed := hfit hcont tokenizer htok
    simp only [Option.map_some, sim.call tokenizer data hfed hdata]
    cases hcall : lib.call tokenizer data with
    | error msg => exact follows_raise h
    | ok r =>
      obtain ⟨result, tokenizer'⟩ := r
      simp only [Except.map, Prod.map_apply, id, bind_assoc, pure_bind]
      refine follows_modify_bind (follows_modify_bind (hk result _ _ ?_))
      refine ⟨limits, hP, fun hs t ht ↦ ?_, rfl⟩
      cases ht
      obtain ⟨status, n⟩ := result
      obtain rfl : status = .CONTINUE := hs
      exact sim.goes tokenizer data n tokenizer' hfed hdata hcall

theorem follows_writeLoop (h : (alongside sim d P).state sol sol') :
    Follows (alongside sim d P) id writeLoop writeLoop sol sol' env := by
  refine Follows.loop (fun _ ↦ False) id (fun _ sol sol' env h _ ↦ ?_) h (fun _ _ h ↦ h)
  obtain ⟨limits, hP, hfit, rfl⟩ := alongside_cases h
  refine follows_get_bind ?_
  rw [recast_inbuf, recast_process]
  refine follows_ite (fun _ ↦ follows_pure h) (fun _ ↦ ?_)
  refine (follows_call h (fun _ ↦ rfl) (fun _ ↦ rfl)).bind (fun r t' _ h ↦ ?_)
  rcases r with (_ | _ | e) | size
  · exact follows_pure h
  · exact follows_raise h
  · exact follows_raise h
  · obtain ⟨limits, hP, hfit, rfl⟩ := alongside_cases h
    refine follows_modify_bind (follows_pure ?_)
    exact ⟨limits, hP, hfit, rfl⟩

theorem follows_handleWriteEnd {ev : EpollEvent} (h : (alongside sim d P).state sol sol') :
    Follows (alongside sim d P) id (handleWriteEnd ev) (handleWriteEnd ev) sol sol' env := by
  obtain ⟨limits, hP, hfit, rfl⟩ := alongside_cases h
  refine follows_get_bind ?_
  rw [recast_process, recast_tokenizerStatus]
  refine follows_ite (fun _ ↦ follows_epollCtlDel h) (fun _ ↦ ?_)
  refine (follows_assert h).bind (fun _ _ _ h ↦ ?_)
  refine follows_ite (fun _ ↦ follows_pure h) (fun _ ↦ ?_)
  refine (follows_writeLoop h).bind (fun _ _ _ h ↦ ?_)
  obtain ⟨limits, hP, hfit, rfl⟩ := alongside_cases h
  refine follows_get_bind ?_
  rw [recast_inbuf, recast_process]
  exact follows_ite (fun _ ↦ follows_epollCtlDel h) (fun _ ↦ follows_pure h)

theorem follows_handleChunk {buf : Bytes} (h : (alongside sim d P).state sol sol')
    (hcont : sol.tokenizerStatus = .CONTINUE) (hbuf : buf ≠ []) :
    Follows (alongside sim d P) id (handleChunk buf) (handleChunk buf) sol sol' env := by
  refine follows_callTokenizer h hcont hbuf (fun result t t' h ↦ ?_)
  obtain ⟨limits, hP, hfit, rfl⟩ := alongside_cases h
  cases result.status with
  | FAIL => exact follows_get_bind (follows_epollCtlDel h)
  | CONTINUE =>
    refine follows_modify ?_
    exact ⟨limits, hP, hfit, rfl⟩
  | ACCEPTED =>
    refine follows_modify ?_
    exact ⟨limits, hP, hfit, rfl⟩

theorem follows_readLoop (h : (alongside sim d P).state sol sol') :
    Follows (alongside sim d P) id readLoop readLoop sol sol' env := by
  refine Follows.loop (fun _ ↦ False) id (fun _ sol sol' env h _ ↦ ?_) h (fun _ _ h ↦ h)
  obtain ⟨limits, hP, hfit, rfl⟩ := alongside_cases h
  refine follows_get_bind ?_
  rw [recast_tokenizerStatus, recast_process]
  refine follows_ite (fun _ ↦ follows_pure h) (fun hs ↦ ?_)
  have hcont : sol.tokenizerStatus = .CONTINUE := by simpa using hs
  refine (follows_call h (fun _ ↦ rfl) (fun _ ↦ rfl)).bind_run (fun r ho ↦ ?_)
  rw [state_ask, state_ask]
  rcases r with (_ | _ | e) | (_ | ⟨c, buf⟩)
  · exact follows_pure h
  · exact follows_raise h
  · exact follows_raise h
  · exact follows_pure h
  · exact (follows_handleChunk h hcont (by simp)).bind (fun _ _ _ h ↦ follows_pure h)

theorem follows_handleReadEnd {ev : EpollEvent} (h : (alongside sim d P).state sol sol') :
    Follows (alongside sim d P) id (handleReadEnd ev) (handleReadEnd ev) sol sol' env := by
  rw [handleReadEnd_eq, handleReadEnd_eq]
  refine follows_ite (fun _ ↦ follows_pure h) (fun _ ↦ ?_)
  exact (follows_readLoop h).bind (fun _ _ _ h ↦ follows_pure h)

theorem follows_handleEvents {events : List EpollEvent}
    (h : (alongside sim d P).state sol sol') :
    Follows (alongside sim d P) id (handleEvents events) (handleEvents events) sol sol' env := by
  induction events generalizing sol sol' env with
  | nil => exact follows_pure h
  | cons ev events ih =>
    obtain ⟨limits, hP, hfit, rfl⟩ := alongside_cases h
    refine follows_get_bind ?_
    rw [recast_process]
    refine follows_ite (fun _ ↦ ?_) (fun _ ↦ follows_ite (fun _ ↦ ?_) (fun _ ↦ ih h))
    · exact (follows_handleWriteEnd h).bind (fun _ _ _ h ↦ ih h)
    · refine (follows_handleReadEnd h).bind (fun left _ _ h ↦ ?_)
      cases left with
      | some status => exact follows_pure h
      | none => exact ih h

variable {untilPoint untilPoint' : Int}

theorem follows_poll (hle : untilPoint + d ≤ untilPoint') {c : List EpollEvent × Int}
    (h : (alongside sim d P).state sol sol')
    (hlate : ∀ events now, ((poll untilPoint c).run sol env).outcome = .returned (events, now) →
      events = [] → untilPoint ≤ now → untilPoint' = untilPoint + d) :
    Follows (alongside sim d P) (Prod.map id (· + d)) (poll untilPoint c)
      (poll untilPoint' (Prod.map id (· + d) c)) sol sol' env := by
  refine Follows.loop (fun r ↦ r.1 = [] ∧ untilPoint ≤ r.2 ∧ untilPoint' ≠ untilPoint + d)
    (Prod.map id (· + d)) (fun c sol sol' env h hbad ↦ ?_) h (fun r ho hr ↦ ?_)
  · obtain ⟨events, now⟩ := c
    dsimp only [Prod.map_apply, id]
    by_cases hgo : events = [] ∧ now < untilPoint
    · have hgo' : events = [] ∧ now + d < untilPoint' := ⟨hgo.1, by omega⟩
      rw [if_pos hgo, if_pos hgo']
      refine (follows_epollWait h).bind (fun events' _ _ h ↦ ?_)
      exact (follows_clockNow h).bind (fun now' _ _ h ↦ follows_pure h)
    · dsimp only at hbad
      rw [if_neg hgo] at hbad ⊢
      have hstop := hbad (events, now) rfl
      have hgo' : ¬ (events = [] ∧ now + d < untilPoint') := by
        intro hgo'
        have hlt : ¬ now < untilPoint := fun hlt ↦ hgo ⟨hgo'.1, hlt⟩
        exact hstop ⟨hgo'.1, by omega, by omega⟩
      rw [if_neg hgo']
      exact follows_pure h
  · exact hr.2.2 (hlate r.1 r.2 ho hr.1 hr.2.1)

theorem poll_until (untilPoint : Int) (sol : Solution lib) (c : List EpollEvent × Int) :
    (poll untilPoint c).Ensures sol (fun _ o _ ↦ ∀ events now, o = .returned (events, now) →
      events = [] → untilPoint ≤ now) := by
  refine Ensures.loop (fun _ _ _ ↦ True) trivial (fun _ _ _ _ _ _ h ↦ by cases h) ?_
  intro c tr sol _
  obtain ⟨events, now⟩ := c
  dsimp only
  split
  · simp only [epollWait, clockNow, bind_assoc, ensures_ask_bind, ensures_checked_bind,
      ensures_pure]
    simp
  · rename_i hstop
    rw [ensures_pure]
    intro events' now' heq hevents
    cases heq
    exact not_lt.mp (fun hlt ↦ hstop ⟨hevents, hlt⟩)

theorem follows_round (hle : untilPoint + d ≤ untilPoint')
    (h : (alongside sim d P).state sol sol')
    (hlate : ((round untilPoint ()).run sol env).outcome =
      .returned (.inr .REAL_TIME_LIMIT_EXCEEDED) → untilPoint' = untilPoint + d) :
    Follows (alongside sim d P) (Sum.map id id) (round untilPoint ()) (round untilPoint' ())
      sol sol' env := by
  obtain ⟨limits, hP, hfit, rfl⟩ := alongside_cases h
  refine follows_get_bind ?_
  rw [recast_tokenizerStatus]
  refine follows_ite (fun _ ↦ follows_pure h) (fun hcont ↦ ?_)
  rw [round, run_get_bind, if_neg hcont] at hlate
  refine (follows_clockNow h).bind (fun now sol₁' ho h ↦ ?_)
  rw [outcome_bind ho] at hlate
  refine (follows_poll hle h ?_).bind (fun polled sol₂' ho h ↦ ?_)
  · intro events now' ho hevents hnow
    refine hlate ?_
    rw [outcome_bind ho]
    simp [hevents, hnow, run_pure]
  · rw [outcome_bind ho] at hlate
    obtain ⟨events, now'⟩ := polled
    dsimp only [Prod.map_apply, id] at hlate ⊢
    by_cases hlimit : events = [] ∧ untilPoint ≤ now'
    · rw [if_pos hlimit] at hlate ⊢
      have heq := hlate rfl
      have hlimit' : events = [] ∧ untilPoint' ≤ now' + d := ⟨hlimit.1, by omega⟩
      rw [if_pos hlimit']
      exact follows_pure h
    · have hlimit' : ¬ (events = [] ∧ untilPoint' ≤ now' + d) := by
        intro hlimit'
        have huntil := ensures_iff_run.mp (poll_until untilPoint _ _) _ events now' ho hlimit'.1
        exact hlimit ⟨hlimit'.1, huntil⟩
      rw [if_neg hlimit, if_neg hlimit']
      refine (follows_handleEvents h).bind (fun left _ _ h ↦ ?_)
      cases left with
      | some status => exact follows_pure h
      | none => exact follows_pure h

theorem firstReading_now {start : Int} {tr : List Event} :
    firstReading (.now start :: tr) = some start := rfl

/-- The deadline of the second run is no earlier than that of the first, and it is the same
unless the first run stays within it. -/
def Spared (d : Int) (limits limits' : ResourceLimits) (x : Execution Event (Solution lib) Failure
    Result.Status) : Prop :=
  ∀ start, firstReading x.trace = some start →
    deadline start limits.realTimeLimit + d ≤ deadline (start + d) limits'.realTimeLimit ∧
    (x.outcome = .returned .REAL_TIME_LIMIT_EXCEEDED →
      deadline (start + d) limits'.realTimeLimit = deadline start limits.realTimeLimit + d)

theorem assert_isSome_bind {k : Unit → Calls (Solution lib) α} (h : sol.tokenizer.isSome = true) :
    (assert (sol.tokenizer.isSome = true) "Begin was not called!" >>= k) = k () := by
  simp [assert, h]

theorem assert_not_isSome_bind {k : Unit → Calls (Solution lib) α}
    (h : ¬ sol.tokenizer.isSome = true) :
    (assert (sol.tokenizer.isSome = true) "Begin was not called!" >>= k) =
      raise (.abort "Begin was not called!") := by
  simp [assert, h, raise_bind]

theorem follows_communicate (h : (alongside sim d P).state sol sol')
    (hspared : Spared d sol.resourceLimits sol'.resourceLimits (communicate.run sol env)) :
    Follows (alongside sim d P) id communicate communicate sol sol' env := by
  obtain ⟨limits, hP, hfit, rfl⟩ := alongside_cases h
  by_cases htok : sol.tokenizer.isSome = true
  · have htok' : (sol.recast sim limits).tokenizer.isSome = true := by rwa [recast_isSome]
    simp only [communicate, run_get_bind, assert_isSome_bind htok,
      recast_resourceLimits] at hspared
    refine follows_get_bind ?_
    rw [assert_isSome_bind htok, assert_isSome_bind htok', recast_process,
      recast_resourceLimits]
    refine (follows_clockNow h).bind (fun start _ ho h ↦ ?_)
    obtain ⟨hle, hlate⟩ := hspared start (by rw [trace_bind ho, clockNow, trace_ask ho]; rfl)
    rw [outcome_bind ho] at hlate
    refine (follows_epollCreate1 h).bind (fun _ _ ho h ↦ ?_)
    rw [outcome_bind ho] at hlate
    refine (follows_epollCtlAdd h).bind (fun _ _ ho h ↦ ?_)
    rw [outcome_bind ho] at hlate
    refine (follows_epollCtlAdd h).bind (fun _ _ ho h ↦ ?_)
    rw [outcome_bind ho] at hlate
    refine Follows.loop (fun status ↦ status = .REAL_TIME_LIMIT_EXCEEDED ∧
      deadline (start + d) limits.realTimeLimit ≠
        deadline start sol.resourceLimits.realTimeLimit + d) id (fun _ _ _ _ h hbad ↦ ?_) h
      (fun status ho hbad ↦ ?_)
    · refine follows_round hle h (fun ho ↦ ?_)
      exact not_not.mp (fun hne ↦ hbad _ ho ⟨rfl, hne⟩)
    · rw [hbad.1] at ho
      exact hbad.2 (hlate ho)
  · have htok' : ¬ (sol.recast sim limits).tokenizer.isSome = true := by rwa [recast_isSome]
    refine follows_get_bind ?_
    rw [assert_not_isSome_bind htok, assert_not_isSome_bind htok']
    exact follows_raise h

theorem follows_freeze (h : (alongside sim d P).state sol sol') :
    Follows (alongside sim d P) id freeze freeze sol sol' env := by
  obtain ⟨limits, hP, hfit, rfl⟩ := alongside_cases h
  refine follows_get_bind ?_
  rw [recast_process]
  refine (follows_killerRequest h).bind (fun _ _ _ h ↦ ?_)
  exact (follows_assert h).bind (fun _ _ _ h ↦ follows_pure h)

theorem follows_unfreeze (h : (alongside sim d P).state sol sol') :
    Follows (alongside sim d P) id unfreeze unfreeze sol sol' env := by
  obtain ⟨limits, hP, hfit, rfl⟩ := alongside_cases h
  refine follows_get_bind ?_
  rw [recast_process]
  refine (follows_killerRequest h).bind (fun _ _ _ h ↦ ?_)
  exact (follows_assert h).bind (fun _ _ _ h ↦ follows_pure h)

theorem follows_terminate (h : (alongside sim d P).state sol sol') :
    Follows (alongside sim d P) id terminate terminate sol sol' env := by
  obtain ⟨limits, hP, hfit, rfl⟩ := alongside_cases h
  refine follows_get_bind ?_
  rw [recast_process]
  refine (follows_killerRequest h).bind (fun _ _ _ h ↦ follows_modify ?_)
  obtain ⟨limits, hP, -, heq⟩ := alongside_cases h
  rw [heq]
  exact ⟨limits, hP, fits_of_none rfl, rfl⟩

theorem follows_newTokenizer {argument : TokenizerArgument} (hargument : sim.Admits argument)
    (h : (alongside sim d P).state sol sol') :
    Follows (alongside sim d P) sim.forget (newTokenizer argument) (newTokenizer argument)
      sol sol' env := by
  refine (follows_call h (fun _ ↦ rfl) (fun _ ↦ rfl)).bind (fun allocated _ _ h ↦ ?_)
  rw [sim.new argument hargument]
  cases lib.newTokenizer argument with
  | error msg => exact follows_raise h
  | ok tokenizer => exact follows_ite (fun _ ↦ follows_pure h) (fun _ ↦ follows_raise h)

theorem newTokenizer_returned {argument : TokenizerArgument} {tokenizer : lib.Instance}
    (ho : ((newTokenizer argument).run sol env).outcome = .returned tokenizer) :
    lib.newTokenizer argument = .ok tokenizer := by
  have hspec : (newTokenizer argument).Ensures sol (fun _ o _ ↦ ∀ tokenizer,
      o = .returned tokenizer → lib.newTokenizer argument = .ok tokenizer) := by
    simp only [newTokenizer, ensures_ask_bind]
    refine ⟨(fun _ h ↦ by cases h), fun m ↦ ?_⟩
    cases lib.newTokenizer argument with
    | error msg => simp
    | ok tokenizer => cases m.allocated <;> simp [Unistd.throw]
  exact ensures_iff_run.mp hspec env tokenizer ho

theorem follows_begin {argument : TokenizerArgument} {limits limits' : ResourceLimits}
    (hargument : sim.Admits argument) (hlimits : P limits limits')
    (h : (alongside sim d P).state sol sol') :
    Follows (alongside sim d P) id (begin argument limits) (begin argument limits')
      sol sol' env := by
  obtain ⟨limits₀, hP, hfit, rfl⟩ := alongside_cases h
  refine follows_get_bind ?_
  rw [recast_isNone, recast_outbuf]
  refine (follows_assert h).bind (fun _ _ _ h ↦ ?_)
  refine (follows_newTokenizer hargument h).bind
    (fun tokenizer sol₁' ho h ↦ follows_modify_bind ?_)
  have hfresh := sim.fresh argument tokenizer hargument (newTokenizer_returned ho)
  obtain ⟨limits₁, -, -, rfl⟩ := alongside_cases h
  refine follows_ite (fun hout ↦ ?_) (fun _ ↦ follows_pure ?_)
  · refine follows_callTokenizer ⟨limits', hlimits, fits_of_fresh rfl hfresh, rfl⟩ rfl hout
      (fun result t t' h ↦ ?_)
    obtain ⟨limits₂, hP₂, hfit₂, rfl⟩ := alongside_cases h
    cases result.status with
    | FAIL => exact follows_pure h
    | ACCEPTED =>
      refine follows_modify ?_
      exact ⟨limits₂, hP₂, hfit₂, rfl⟩
    | CONTINUE =>
      refine follows_modify ?_
      exact ⟨limits₂, hP₂, hfit₂, rfl⟩
  · exact ⟨limits', hlimits, fits_of_fresh rfl hfresh, rfl⟩

theorem follows_send {msg : Bytes} (h : (alongside sim d P).state sol sol') :
    Follows (alongside sim d P) id (send msg) (send msg) sol sol' env := by
  obtain ⟨limits, hP, hfit, rfl⟩ := alongside_cases h
  refine follows_get_bind ?_
  rw [recast_isSome]
  refine (follows_assert h).bind (fun _ _ _ h ↦ follows_modify ?_)
  obtain ⟨limits, hP, hfit, heq⟩ := alongside_cases h
  rw [heq]
  exact ⟨limits, hP, hfit, rfl⟩

theorem follows_verdict (h : (alongside sim d P).state sol sol') :
    Follows (alongside sim d P) id verdict verdict sol sol' env := by
  obtain ⟨limits, hP, hfit, rfl⟩ := alongside_cases h
  refine follows_get_bind ?_
  rw [recast_tokenizerStatus, recast_what]
  cases sol.tokenizerStatus with
  | FAIL => exact follows_pure h
  | CONTINUE => exact follows_pure h
  | ACCEPTED => exact follows_pure h

theorem follows_conclude {discardRemaining : Bool} {status : Result.Status}
    (h : (alongside sim d P).state sol sol') :
    Follows (alongside sim d P) id (conclude discardRemaining status)
      (conclude discardRemaining status) sol sol' env := by
  have hrest {sol : Solution lib} {sol' : Solution lib'} {env : List Answer}
      (h : (alongside sim d P).state sol sol') :
      Follows (alongside sim d P) id (do
        if status ≠ .OK then
          terminate
          pure ⟨status, []⟩
        else
          verdict) (do
        if status ≠ .OK then
          terminate
          pure ⟨status, []⟩
        else
          verdict) sol sol' env :=
    follows_ite (fun _ ↦ (follows_terminate h).bind (fun _ _ _ h ↦ follows_pure h))
      (fun _ ↦ follows_verdict h)
  unfold conclude
  cases discardRemaining with
  | true =>
    obtain ⟨limits, hP, hfit, rfl⟩ := alongside_cases h
    refine follows_modify_bind (hrest ?_)
    exact ⟨limits, hP, hfit, rfl⟩
  | false => exact hrest h

def awaitVerdict : Calls (Solution lib) Result.Status := do
  let status ← indeterminate
  let sol ← get
  if sol.tokenizerStatus = .CONTINUE then
    let _ ← unfreeze
    communicate
  else
    pure status

theorem firstReading_append_left {tr tr' : List Event} {start : Int}
    (h : firstReading tr = some start) : firstReading (tr ++ tr') = some start := by
  unfold firstReading at h ⊢
  rw [List.findSome?_append, h, Option.some_or]

theorem firstReading_append_right {tr tr' : List Event} (h : firstReading tr = none) :
    firstReading (tr ++ tr') = firstReading tr' := by
  unfold firstReading at h ⊢
  rw [List.findSome?_append, h, Option.none_or]

theorem firstReading_indeterminate {status : Result.Status} {tr : List Event} :
    firstReading (.indeterminate status :: tr) = firstReading tr := rfl

theorem unfreeze_quiet (sol : Solution lib) :
    unfreeze.Ensures sol (fun tr _ sol' ↦ firstReading tr = none ∧ sol' = sol) := by
  simp only [unfreeze, ensures_get_bind, ensures_killerRequest_bind, ensures_assert_bind,
    ensures_pure]
  simp [firstReading, Event.reading]

theorem follows_endCommunicate (h : (alongside sim d P).state sol sol')
    (hspared : Spared d sol.resourceLimits sol'.resourceLimits (awaitVerdict.run sol env)) :
    Follows (alongside sim d P) id endCommunicate endCommunicate sol sol' env := by
  refine follows_ask_bind (f := id) h (fun _ ↦ rfl) (fun _ ↦ rfl) (fun m env henv ↦ ?_)
  obtain ⟨limits, hP, hfit, rfl⟩ := alongside_cases h
  refine follows_get_bind ?_
  rw [recast_tokenizerStatus]
  refine follows_ite (fun hcont ↦ ?_) (fun _ ↦ follows_pure h)
  refine (follows_unfreeze h).bind_run (fun _ ho ↦ ?_)
  obtain ⟨hquiet, hstate⟩ := ensures_iff_run.mp (unfreeze_quiet sol) env
  obtain ⟨-, hstate'⟩ := ensures_iff_run.mp (unfreeze_quiet (sol.recast sim limits))
    (env.map (alongside sim d P).answer)
  rw [henv] at hspared
  simp only [awaitVerdict, indeterminate, run_ask_bind, run_get_bind, hcont, if_true,
    outcome_bind ho, trace_bind ho, Spared, firstReading_indeterminate,
    firstReading_append_right hquiet, hstate] at hspared
  rw [hstate, hstate']
  refine (follows_communicate h hspared).bind (fun status _ _ h ↦ ?_)
  exact (follows_freeze h).bind (fun _ _ _ h ↦ follows_pure h)

theorem follows_end {discardRemaining : Bool} (h : (alongside sim d P).state sol sol')
    (hspared : Spared d sol.resourceLimits sol'.resourceLimits (awaitVerdict.run sol env)) :
    Follows (alongside sim d P) id (end' discardRemaining) (end' discardRemaining)
      sol sol' env := by
  obtain ⟨limits, hP, hfit, rfl⟩ := alongside_cases h
  by_cases htok : sol.tokenizer.isSome = true
  · have htok' : (sol.recast sim limits).tokenizer.isSome = true := by rwa [recast_isSome]
    refine follows_get_bind ?_
    rw [assert_isSome_bind htok, assert_isSome_bind htok']
    refine Follows.scopeExit ?_ (fun t t' h ↦ ?_)
    · exact (follows_endCommunicate h hspared).bind (fun _ _ _ h ↦ follows_conclude h)
    · obtain ⟨limits, hP, -, rfl⟩ := alongside_cases h
      exact ⟨limits, hP, fits_of_none rfl, rfl⟩
  · have htok' : ¬ (sol.recast sim limits).tokenizer.isSome = true := by rwa [recast_isSome]
    refine follows_get_bind ?_
    rw [assert_not_isSome_bind htok, assert_not_isSome_bind htok']
    exact follows_raise h

end Solution

end FlowctlGame
