import FlowctlGame.Limits
import FlowctlGame.Turns
import Mathlib.Logic.Function.Basic

namespace FlowctlGame

open Interaction Program Unistd Broker

variable {lib lib' : TokenizerLibrary} {α β : Type}

def Unistd.lasts (start : Int) (l : Int64) : Int := deadline start l - start

namespace Solution

variable {sol sol' : Solution lib} {env : List Answer} {d : Int}

theorem awaitVerdict_le_endCommunicate (sol : Solution lib) (env : List Answer) :
    (awaitVerdict.run sol env).trace <+: (endCommunicate.run sol env).trace := by
  cases env with
  | nil => exact List.prefix_rfl
  | cons m env =>
    simp only [endCommunicate, awaitVerdict, indeterminate, run_ask_bind, run_get_bind]
    rw [List.cons_prefix_cons]
    refine ⟨rfl, ?_⟩
    split
    · have htrace := trace_bind_left (unfreeze >>= fun _ ↦ communicate)
        (fun status ↦ freeze >>= fun _ ↦ pure status) sol env
      rwa [bind_assoc] at htrace
    · exact List.prefix_rfl

theorem firstReading_mono {tr tr' : List Event} {start : Int} (h : tr <+: tr')
    (hstart : firstReading tr = some start) : firstReading tr' = some start := by
  obtain ⟨rest, rfl⟩ := h
  exact firstReading_append_left hstart

theorem end_reading {discardRemaining : Bool} {start : Int} (htok : sol.tokenizer.isSome = true)
    (h : firstReading (awaitVerdict.run sol env).trace = some start) :
    firstReading ((Solution.end' discardRemaining).run sol env).trace = some start := by
  rw [Solution.end', run_get_bind, assert_isSome_bind htok, scopeExit_trace]
  exact firstReading_mono (trace_bind_left _ _ _ _)
    (firstReading_mono (awaitVerdict_le_endCommunicate sol env) h)

theorem alongside_eq (h : (alongside (.refl lib) d Eq).state sol sol') : sol' = sol := by
  obtain ⟨limits, rfl, -, rfl⟩ := h
  exact recast_self sol

/-- An `end` whose deadline lasts as long as it does `d` nanoseconds later goes the same way
then. -/
theorem follows_end_later {sim : lib.Simulation lib'} {discardRemaining : Bool}
    (hfit : sol.Fits sim)
    (hlasts : ∀ start,
      firstReading ((Solution.end' discardRemaining).run sol env).trace = some start →
        lasts (start + d) sol.resourceLimits.realTimeLimit =
          lasts start sol.resourceLimits.realTimeLimit) :
    Follows (alongside sim d Eq) id (Solution.end' discardRemaining)
      (Solution.end' discardRemaining) sol (sol.recast sim sol.resourceLimits) env := by
  have hstate : (alongside sim d Eq).state sol (sol.recast sim sol.resourceLimits) :=
    ⟨_, rfl, hfit, rfl⟩
  by_cases htok : sol.tokenizer.isSome = true
  · refine follows_end hstate (fun start hstart ↦ ?_)
    have heq := hlasts start (end_reading htok hstart)
    unfold lasts at heq
    rw [recast_resourceLimits]
    exact ⟨by omega, fun _ ↦ by omega⟩
  · have htok' : ¬ (sol.recast sim sol.resourceLimits).tokenizer.isSome = true := by
      rwa [recast_isSome]
    refine follows_get_bind ?_
    rw [assert_not_isSome_bind htok, assert_not_isSome_bind htok']
    exact follows_raise hstate

end Solution

namespace BrokerImpl

theorem follows_work {sim : lib.Simulation lib'} {b : BrokerImpl lib} {b' : BrokerImpl lib'}
    {c : Command} {sol : Solution lib} {env : List Answer} {d : Int}
    (hlimits : b'.defaultResourceLimits = b.defaultResourceLimits)
    (hargument : b'.defaultTokenizerArgument = b.defaultTokenizerArgument) (hfit : sol.Fits sim)
    (hadmits : ∀ argument limits, b.opens c = some (argument, limits) → sim.Admits argument)
    (hlasts : ∀ start, firstReading ((b.work c).run sol env).trace = some start →
      lasts (start + d) sol.resourceLimits.realTimeLimit =
        lasts start sol.resourceLimits.realTimeLimit) :
    Follows (Solution.alongside sim d Eq) id (b.work c) (b'.work c) sol
      (sol.recast sim sol.resourceLimits) env := by
  have hsol : (Solution.alongside sim d Eq).state sol (sol.recast sim sol.resourceLimits) :=
    ⟨_, rfl, hfit, rfl⟩
  have hbegin {argument : TokenizerArgument} {limits : ResourceLimits}
      (h : b.opens c = some (argument, limits)) :
      Follows (Solution.alongside sim d Eq) id
        (do Solution.begin argument limits; pure (none : Option Result))
        (do Solution.begin argument limits; pure none) sol
        (sol.recast sim sol.resourceLimits) env :=
    (Solution.follows_begin (hadmits _ _ h) rfl hsol).bind (fun _ _ _ h ↦ follows_pure h)
  cases c with
  | begin₁ =>
    simp only [work, hlimits, hargument]
    exact hbegin rfl
  | begin₂ =>
    simp only [work, hlimits]
    exact hbegin rfl
  | begin₃ => exact hbegin rfl
  | send => exact (Solution.follows_send hsol).bind (fun _ _ _ h ↦ follows_pure h)
  | end' =>
    refine (Solution.follows_end_later hfit (fun start hstart ↦ hlasts start ?_)).bind
      (fun _ _ _ h ↦ follows_pure h)
    exact Solution.firstReading_mono (trace_bind_left _ _ _ _) hstart
  | terminate => exact (Solution.follows_terminate hsol).bind (fun _ _ _ h ↦ follows_pure h)

/-- A broker, and what each solution went through so far; a clock reading is counted from the
start of its command. -/
structure World (lib : TokenizerLibrary) where
  broker : BrokerImpl lib
  history : SolutionId → List Exchange

/-- What the environment has in store for a command to a solution with this history; the value
of a status that was not assigned is part of it, too. -/
abbrev Surroundings := SolutionId → List Exchange → Command → List Answer

variable {E : Surroundings} {w w' : World lib} {c : Command} {date date' : Int}

def World.execute (E : Surroundings) (date : Int) (c : Command) (w : World lib) :
    Execution Event (BrokerImpl lib) Failure (Option Result) :=
  (run c).run w.broker ((E c.id (w.history c.id) c).map (Answer.later date))

def World.perform (E : Surroundings) (date : Int) (c : Command) (w : World lib) : World lib where
  broker := (w.execute E date c).state
  history := Function.update w.history c.id (w.history c.id ++ [⟨c, (w.execute E date c).outcome,
    (w.execute E date c).trace.map (Event.later (-date))⟩])

/-- The deadline of the command lasts as long at `date'` as it does at `date`. -/
def World.Steady (E : Surroundings) (date date' : Int) (c : Command) (w : World lib) : Prop :=
  ∀ sol start, w.broker.solutions[c.id.toNat]? = some sol →
    firstReading (w.execute E date c).trace = some start →
      lasts (start + (date' - date)) sol.resourceLimits.realTimeLimit =
        lasts start sol.resourceLimits.realTimeLimit

/-- Replace the record of a solution, if there is one, and add to its history. -/
def World.put (id : SolutionId) (sol : Option (Solution lib)) (x : Exchange) (w : World lib) :
    World lib where
  broker := { w.broker with
    solutions := sol.elim w.broker.solutions (w.broker.solutions.set id.toNat) }
  history := Function.update w.history id (w.history id ++ [x])

structure World.Alike (id : SolutionId) (w w' : World lib) : Prop where
  limits : w'.broker.defaultResourceLimits = w.broker.defaultResourceLimits
  argument : w'.broker.defaultTokenizerArgument = w.broker.defaultTokenizerArgument
  solution : w'.broker.solutions[id.toNat]? = w.broker.solutions[id.toNat]?
  history : w'.history id = w.history id

theorem later_later (d d' : Int) (m : Answer) : (m.later d).later d' = m.later (d + d') := by
  simp [Answer.later, add_assoc]

theorem event_later_later (d d' : Int) (e : Event) : (e.later d).later d' = e.later (d + d') := by
  cases e <;> simp [Event.later, add_assoc]

theorem World.perform_alike (h : w.Alike c.id w') (hsteady : w.Steady E date date' c) :
    ∃ sol x, w.perform E date c = w.put c.id sol x ∧ w'.perform E date' c = w'.put c.id sol x := by
  obtain ⟨hlimits, hargument, hsol, hhistory⟩ := h
  have hwork : w'.broker.work c = w.broker.work c := by
    cases c <;> simp only [work, hlimits, hargument]
  cases hown : w.broker.solutions[c.id.toNat]? with
  | none =>
    refine ⟨none, ⟨c, .raised (.abort "id < solutions_.size()"), []⟩, ?_, ?_⟩
    · simp only [World.perform, World.execute, run_work, run_solution_absent hown]
      rfl
    · rw [hown] at hsol
      simp only [World.perform, World.execute, run_work, run_solution_absent hsol]
      rfl
  | some sol =>
    have hsol' := hsol.trans hown
    have henv : ((E c.id (w.history c.id) c).map (Answer.later date)).map
        (Answer.later (date' - date)) = (E c.id (w.history c.id) c).map (Answer.later date') := by
      simp only [List.map_map, Function.comp_def, later_later, add_sub_cancel]
    have hfollows : Follows (Solution.alongside (.refl lib) (date' - date) Eq) id
        (w.broker.work c) (w.broker.work c) sol (sol.recast (.refl lib) sol.resourceLimits)
          ((E c.id (w.history c.id) c).map (Answer.later date)) := by
      refine follows_work rfl rfl (Solution.fits_refl sol) (fun _ _ _ ↦ trivial)
        (fun start hstart ↦ hsteady sol start hown ?_)
      rwa [World.execute, run_work, run_solution hown]
    rw [Solution.recast_self] at hfollows
    obtain ⟨hout, hstate, htrace⟩ := hfollows
    have hsame := Solution.alongside_eq hstate
    simp only [Solution.alongside, henv, Outcome.map_id] at hout hsame htrace
    let x := (w.broker.work c).run sol ((E c.id (w.history c.id) c).map (Answer.later date))
    refine ⟨some x.state, ⟨c, x.outcome, x.trace.map (Event.later (-date))⟩, ?_, ?_⟩
    · simp only [World.perform, World.execute, run_work, run_solution hown]
      rfl
    · simp only [World.perform, World.execute, run_work, hwork, hhistory, run_solution hsol',
        hout, hsame, htrace, List.map_map, Function.comp_def, event_later_later, World.put,
        Option.elim_some]
      have hdate : date' - date + -date' = -date := by omega
      simp only [hdate]
      rfl

theorem World.alike_put {id id' : SolutionId} {sol : Option (Solution lib)} {x : Exchange}
    (hne : id ≠ id') : w.Alike id (w.put id' sol x) := by
  have hnat : id'.toNat ≠ id.toNat := fun h ↦ hne (UInt64.toNat_inj.mp h).symm
  refine ⟨rfl, rfl, ?_, Function.update_of_ne hne _ _⟩
  cases sol with
  | none => rfl
  | some sol => exact List.getElem?_set_ne hnat

theorem World.put_comm {id id' : SolutionId} {sol sol' : Option (Solution lib)} {x x' : Exchange}
    (hne : id ≠ id') : (w.put id sol x).put id' sol' x' = (w.put id' sol' x').put id sol x := by
  have hnat : id.toNat ≠ id'.toNat := fun h ↦ hne (UInt64.toNat_inj.mp h)
  have hsolutions : sol'.elim (sol.elim w.broker.solutions (w.broker.solutions.set id.toNat))
      ((sol.elim w.broker.solutions (w.broker.solutions.set id.toNat)).set id'.toNat) =
    sol.elim (sol'.elim w.broker.solutions (w.broker.solutions.set id'.toNat))
      ((sol'.elim w.broker.solutions (w.broker.solutions.set id'.toNat)).set id.toNat) := by
    cases sol with
    | none => cases sol' <;> rfl
    | some sol =>
      cases sol' with
      | none => rfl
      | some sol' => exact List.set_comm _ _ hnat
  simp only [World.put, hsolutions, Function.update_of_ne hne, Function.update_of_ne hne.symm,
    Function.update_comm hne]

theorem World.alike_perform {id : SolutionId} (hne : id ≠ c.id) :
    w.Alike id (w.perform E date c) := by
  have hsteady : w.Steady E date date c := by
    intro sol start _ _
    rw [sub_self, add_zero]
  obtain ⟨sol, x, hput, -⟩ := World.perform_alike (⟨rfl, rfl, rfl, rfl⟩ : w.Alike c.id w) hsteady
  rw [hput]
  exact World.alike_put hne

theorem World.Alike.symm {id : SolutionId} (h : w.Alike id w') : w'.Alike id w :=
  ⟨h.limits.symm, h.argument.symm, h.solution.symm, h.history.symm⟩

theorem World.Alike.trans {id : SolutionId} {w'' : World lib} (h : w.Alike id w')
    (h' : w'.Alike id w'') : w.Alike id w'' :=
  ⟨h'.limits.trans h.limits, h'.argument.trans h.argument, h'.solution.trans h.solution,
    h'.history.trans h.history⟩

theorem World.perform_comm {c' : Command} (hne : c.id ≠ c'.id) {date₁ date₂ date₁' date₂' : Int}
    (hsteady : w.Steady E date₁ date₁' c)
    (hsteady' : (w.perform E date₁ c).Steady E date₂ date₂' c') :
    (w.perform E date₂' c').perform E date₁' c = (w.perform E date₁ c).perform E date₂ c' := by
  have halike : w.Alike c'.id (w.perform E date₁ c) := World.alike_perform hne.symm
  obtain ⟨sol', x', hthen, hbefore⟩ := World.perform_alike halike.symm hsteady'
  have halike' : w.Alike c.id (w.perform E date₂' c') := World.alike_perform hne
  obtain ⟨sol, x, hfirst, hsecond⟩ := World.perform_alike halike' hsteady
  rw [hsecond, hbefore, hthen, hfirst]
  exact World.put_comm hne.symm

/-- A command in an interleaving, its date, and its date when its solution is on its own. -/
structure Turn where
  command : Command
  date : Int
  alone : Int

def World.performAll (E : Surroundings) (w : World lib) (turns : List (Command × Int)) :
    World lib :=
  turns.foldl (fun w turn ↦ w.perform E turn.2 turn.1) w

def Turn.own (id : SolutionId) (turns : List Turn) : List (Command × Int) :=
  (turns.filter (·.command.id = id)).map (fun turn ↦ (turn.command, turn.alone))

def World.SteadyFor (E : Surroundings) (id : SolutionId) : World lib → List Turn → Prop
  | _, [] => True
  | w, turn :: turns =>
    (turn.command.id = id → w.Steady E turn.date turn.alone turn.command) ∧
      (w.perform E turn.date turn.command).SteadyFor E id turns

theorem World.alike_put_put {id : SolutionId} {sol : Option (Solution lib)} {x : Exchange}
    (h : w.Alike id w') : (w.put id sol x).Alike id (w'.put id sol x) := by
  obtain ⟨hlimits, hargument, hsol, hhistory⟩ := h
  refine ⟨hlimits, hargument, ?_, ?_⟩
  · cases sol with
    | none => exact hsol
    | some sol =>
      simp only [World.put, Option.elim_some, List.getElem?_set_self', hsol]
  · simp only [World.put, Function.update_self, hhistory]

theorem World.performAll_own {id : SolutionId} {turns : List Turn} (h : w.Alike id w')
    (hsteady : w.SteadyFor E id turns) :
    (w.performAll E (turns.map (fun turn ↦ (turn.command, turn.date)))).Alike id
      (w'.performAll E (Turn.own id turns)) := by
  induction turns generalizing w w' with
  | nil => exact h
  | cons turn turns ih =>
    obtain ⟨hturn, hturns⟩ := hsteady
    by_cases hid : turn.command.id = id
    · subst hid
      obtain ⟨sol, x, hput, hput'⟩ := World.perform_alike h (hturn rfl)
      have hnext : (w.perform E turn.date turn.command).Alike turn.command.id
          (w'.perform E turn.alone turn.command) := by
        rw [hput, hput']
        exact World.alike_put_put h
      have hown : Turn.own turn.command.id (turn :: turns) =
          (turn.command, turn.alone) :: Turn.own turn.command.id turns := by
        simp [Turn.own]
      rw [hown]
      exact ih hnext hturns
    · have hnext : (w.perform E turn.date turn.command).Alike id w' :=
        (World.alike_perform (Ne.symm hid)).symm.trans h
      have hown : Turn.own id (turn :: turns) = Turn.own id turns := by
        simp [Turn.own, hid]
      rw [hown]
      exact ih hnext hturns

/-- The order of two commands to different solutions does not matter, and a solution goes through
the same on its own as among others, where its deadlines last as long. -/
theorem solutions_independent (E : Surroundings) (w : World lib) :
    (∀ (c c' : Command) (date₁ date₂ date₁' date₂' : Int), c.id ≠ c'.id →
      w.Steady E date₁ date₁' c → (w.perform E date₁ c).Steady E date₂ date₂' c' →
        (w.perform E date₂' c').perform E date₁' c =
          (w.perform E date₁ c).perform E date₂ c') ∧
    ∀ (id : SolutionId) (turns : List Turn), w.SteadyFor E id turns →
      (w.performAll E (Turn.own id turns)).history id =
        (w.performAll E (turns.map (fun turn ↦ (turn.command, turn.date)))).history id ∧
      (w.performAll E (Turn.own id turns)).broker.solutions[id.toNat]? =
        (w.performAll E (turns.map (fun turn ↦ (turn.command, turn.date)))).broker.solutions[
          id.toNat]? := by
  refine ⟨fun c c' _ _ _ _ hne h h' ↦ World.perform_comm hne h h', fun id turns h ↦ ?_⟩
  have halike := World.performAll_own (⟨rfl, rfl, rfl, rfl⟩ : w.Alike id w) h
  exact ⟨halike.history, halike.solution⟩

/-- An `end` finds the answer, a single newline, in the pipe `outFd`; all clocks stand still. -/
def answering (outFd : Fd) : List Answer :=
  [{}, {}, {}, {}, {}, {}, {}, { epollWait := .ok [{ fd := outFd, EPOLLIN := true }] }, {},
    { read := .ok [10] }, {}]

def pairSurroundings : Surroundings
  | id, _, .end' _ _ => answering (if id = 0 then 5 else 15)
  | _, _, _ => [{}]

def bothAsked (l : Int64) : World SplitChar.library :=
  World.performAll pairSurroundings ⟨ready Options.pair, fun _ ↦ []⟩
    [(.begin₃ 0 [10] ⟨0, l⟩, 0), (.begin₁ 1, 0)]

def outcomes (w : World lib) (id : SolutionId) : List (Outcome Failure (Option Result)) :=
  (w.history id).map (·.outcome)

/-- The second of the two commands starts a millisecond after the first. The limit of the first
solution, 292 years, is just short enough for a deadline that is set at zero. -/
theorem order_matters :
    outcomes (((bothAsked 9223372036854).perform pairSurroundings 0 (.end' 0 false)).perform
      pairSurroundings 1000000 (.end' 1 false)) 0 =
        [.returned none, .returned (some ⟨.OK, [10]⟩)] ∧
    outcomes (((bothAsked 9223372036854).perform pairSurroundings 0 (.end' 1 false)).perform
      pairSurroundings 1000000 (.end' 0 false)) 0 =
        [.returned none, .returned (some ⟨.REAL_TIME_LIMIT_EXCEEDED, []⟩)] := by
  refine ⟨?_, ?_⟩
  · cbv
  · cbv

theorem steady_of {start : Int} {sol₀ : Solution lib} {w : World lib}
    (hsol : w.broker.solutions[c.id.toNat]? = some sol₀)
    (hstart : firstReading (w.execute E date c).trace = some start)
    (hlasts : lasts (start + (date' - date)) sol₀.resourceLimits.realTimeLimit =
      lasts start sol₀.resourceLimits.realTimeLimit) : w.Steady E date date' c := by
  intro sol t h ht
  rw [hsol] at h
  rw [hstart] at ht
  cases h
  cases ht
  exact hlasts

def lineAsked (process : Process) : Solution SplitChar.library where
  process := process
  tokenizer := some (⟨10⟩ : SplitChar)
  resourceLimits := ⟨0, 3600000⟩

theorem solutions_independent_both_asked :
    ((bothAsked 3600000).perform pairSurroundings 5 (.end' 1 false)).perform pairSurroundings 9
        (.end' 0 false) =
      ((bothAsked 3600000).perform pairSurroundings 3 (.end' 0 false)).perform pairSurroundings 7
        (.end' 1 false) ∧
    ((bothAsked 3600000).performAll pairSurroundings [(.end' 0 false, 9)]).history 0 =
      ((bothAsked 3600000).performAll pairSurroundings
        [(.end' 0 false, 3), (.end' 1 false, 7)]).history 0 := by
  have hfirst : (bothAsked 3600000).Steady pairSurroundings 3 9 (.end' 0 false) := by
    have hsol : (bothAsked 3600000).broker.solutions[(0 : SolutionId).toNat]? =
        some (lineAsked ⟨4, 5, 10⟩) := by cbv
    have hstart : firstReading ((bothAsked 3600000).execute pairSurroundings 3
        (.end' 0 false)).trace = some 3 := by cbv
    exact steady_of hsol hstart (by decide)
  have hsecond : ((bothAsked 3600000).perform pairSurroundings 3 (.end' 0 false)).Steady
      pairSurroundings 7 5 (.end' 1 false) := by
    have hsol : ((bothAsked 3600000).perform pairSurroundings 3
        (.end' 0 false)).broker.solutions[(1 : SolutionId).toNat]? =
          some { lineAsked ⟨14, 15, 20⟩ with resourceLimits := {} } := by cbv
    have hstart : firstReading (((bothAsked 3600000).perform pairSurroundings 3
        (.end' 0 false)).execute pairSurroundings 7 (.end' 1 false)).trace = some 7 := by cbv
    exact steady_of hsol hstart (by decide)
  obtain ⟨hcomm, hown⟩ := solutions_independent pairSurroundings (bothAsked 3600000)
  refine ⟨hcomm _ _ 3 7 9 5 (by decide) hfirst hsecond, ?_⟩
  refine (hown 0 [⟨.end' 0 false, 3, 9⟩, ⟨.end' 1 false, 7, 5⟩] ⟨fun _ ↦ hfirst, ?_, trivial⟩).1
  exact fun h ↦ absurd h (by decide)

end BrokerImpl

end FlowctlGame
