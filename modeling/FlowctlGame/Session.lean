import FlowctlGame.Iteration

namespace FlowctlGame.BrokerImpl

open Interaction Program Unistd Broker

variable {lib : TokenizerLibrary}

def Command.id : Command → SolutionId
  | .begin₁ id | .begin₂ id _ | .begin₃ id _ _ | .send id _ | .end' id _ | .terminate id => id

/-- The arguments that a `begin` command passes on to the overload with three arguments. -/
def opens (b : BrokerImpl lib) : Command → Option (TokenizerArgument × ResourceLimits)
  | .begin₁ _ => some (b.defaultTokenizerArgument, b.defaultResourceLimits)
  | .begin₂ _ argument => some (argument, b.defaultResourceLimits)
  | .begin₃ _ argument limits => some (argument, limits)
  | _ => none

/-- What a command that returns does to the record of its solution. -/
inductive Effect (b : BrokerImpl lib) :
    Command → Solution lib → List Event → Option Result → Solution lib → Prop
  | begun {c : Command} {sol sol' : Solution lib} {argument : TokenizerArgument}
      {limits : ResourceLimits} (hc : b.opens c = some (argument, limits))
      (htok : sol.tokenizer = none) (hb : sol.Begun argument limits sol') :
      Effect b c sol [.newTokenizer argument true] none sol'
  | sent {id : SolutionId} {msg : Bytes} {sol : Solution lib} (htok : sol.tokenizer ≠ none) :
      Effect b (.send id msg) sol [] none { sol with inbuf := sol.inbuf ++ msg }
  | ended {id : SolutionId} {discardRemaining : Bool} {sol sol' : Solution lib}
      {tr : List Event} {result : Result} (htok : sol.tokenizer ≠ none)
      (he : sol.Ended discardRemaining tr result sol') :
      Effect b (.end' id discardRemaining) sol tr (some result) sol'
  | terminated {id : SolutionId} {sol : Solution lib} {reply : Killer.Status} :
      Effect b (.terminate id) sol [.killer .TERMINATE sol.process.id (.ok reply)] none sol.dropped

/-- A command given to the broker, how it was left, and the calls made meanwhile. -/
structure Exchange where
  command : Command
  outcome : Outcome Failure (Option Result)
  trace : List Event

def Serves (b : BrokerImpl lib) (x : Exchange) (b' : BrokerImpl lib) : Prop :=
  (run x.command).Executes b x.trace x.outcome b'

def Answers (b : BrokerImpl lib) (x : Exchange) (b' : BrokerImpl lib) : Prop :=
  Serves b x b' ∧ ∃ reply, x.outcome = .returned reply

section Work

variable {α β : Type}

theorem run_solution {b : BrokerImpl lib} {id : SolutionId} {sol : Solution lib}
    (hsol : b.solutions[id.toNat]? = some sol) (m : Calls (Solution lib) α) (env : List Answer) :
    (solution id m).run b env = ⟨(m.run sol env).outcome,
      { b with solutions := b.solutions.set id.toNat (m.run sol env).state },
      (m.run sol env).trace⟩ := by
  unfold solution solutionAt
  rw [run_focus (s := b) (t := sol) hsol]

theorem run_solution_absent {b : BrokerImpl lib} {id : SolutionId}
    (hsol : b.solutions[id.toNat]? = none)
    (m : Calls (Solution lib) α) (env : List Answer) :
    (solution id m).run b env = ⟨.raised (.abort "id < solutions_.size()"), b, []⟩ := by
  unfold solution solutionAt
  rw [run_focus_absent (s := b) hsol]

/-- The work of a command on the record of its solution. -/
def work (b : BrokerImpl lib) : Command → Calls (Solution lib) (Option Result)
  | .begin₁ _ => do
    Solution.begin b.defaultTokenizerArgument b.defaultResourceLimits
    pure none
  | .begin₂ _ argument => do Solution.begin argument b.defaultResourceLimits; pure none
  | .begin₃ _ argument limits => do Solution.begin argument limits; pure none
  | .send _ msg => do Solution.send msg; pure none
  | .end' _ discardRemaining => do
    let result ← Solution.end' discardRemaining
    pure (some result)
  | .terminate _ => do Solution.terminate; pure none

theorem solution_pure {id : SolutionId} {m : Calls (Solution lib) α} {g : α → β} :
    (solution id m >>= fun a ↦ pure (g a)) = solution id (m >>= fun a ↦ pure (g a)) := by
  ext b env
  cases hsol : b.solutions[id.toNat]? with
  | none =>
    rw [run_bind, run_solution_absent hsol, run_solution_absent hsol]
    rfl
  | some sol =>
    rw [run_bind, run_solution hsol, run_solution hsol, run_bind]
    cases ho : (m.run sol env).outcome <;> simp only [Execution.andThen, ho, run_pure]

/-- A command is its work, done on the solution that it names. -/
theorem run_work (b : BrokerImpl lib) (c : Command) (env : List Answer) :
    (run c).run b env = (solution c.id (b.work c)).run b env := by
  cases c with
  | begin₁ id =>
    simp only [run, begin₁, begin₂, begin₃, bind_assoc, run_get_bind, work, Command.id]
    rw [solution_pure]
  | begin₂ id argument =>
    simp only [run, begin₂, begin₃, bind_assoc, run_get_bind, work, Command.id]
    rw [solution_pure]
  | begin₃ id argument limits =>
    simp only [run, begin₃, work, Command.id]
    rw [solution_pure]
  | send id msg =>
    simp only [run, work, Command.id]
    rw [solution_pure]
  | end' id discardRemaining =>
    simp only [run, work, Command.id]
    rw [solution_pure]
  | terminate id =>
    simp only [run, work, Command.id]
    rw [solution_pure]

end Work

theorem solution_spec {α : Type} {m : Calls (Solution lib) α} (b : BrokerImpl lib)
    (id : SolutionId) :
    (solution id m).Ensures b (fun tr o b' ↦
      (∃ sol sol', b.solutions[id.toNat]? = some sol ∧ m.Executes sol tr o sol' ∧
        b' = { b with solutions := b.solutions.set id.toNat sol' }) ∨
      b.solutions[id.toNat]? = none ∧ b' = b ∧ tr = [] ∧
        o = .raised (.abort "id < solutions_.size()")) := by
  unfold solution solutionAt
  refine Ensures.focus (fun sol hsol tr o sol' he ↦ ?_) (fun h ↦ ?_)
  · exact .inl ⟨sol, sol', hsol, he, rfl⟩
  · exact .inr ⟨h, rfl, rfl, rfl⟩

theorem solution_returned {α β : Type} {m : Calls (Solution lib) α} {g : α → β}
    (b : BrokerImpl lib) (id : SolutionId) :
    (solution id m >>= fun a ↦ pure (g a)).Ensures b (fun tr o b' ↦ ∀ r, o = .returned r →
      ∃ sol sol' a, b.solutions[id.toNat]? = some sol ∧ m.Executes sol tr (.returned a) sol' ∧
        r = g a ∧ b' = { b with solutions := b.solutions.set id.toNat sol' }) := by
  refine (solution_spec b id).sequence ?_ ?_ ?_
  · intro tr a b' hx
    obtain ⟨sol, sol', hsol, he, rfl⟩ | ⟨-, -, -, h⟩ := hx
    · simp only [ensures_pure, List.append_nil]
      intro r hr
      cases hr
      exact ⟨sol, sol', a, hsol, he, rfl, rfl⟩
    · cases h
  · exact fun _ _ _ _ _ h ↦ by cases h
  · exact fun _ _ _ _ h ↦ by cases h

theorem run_spec (b : BrokerImpl lib) (c : Command) :
    (run c).Ensures b (fun tr o b' ↦ ∀ reply, o = .returned reply →
      ∃ sol sol', b.solutions[c.id.toNat]? = some sol ∧ b.Effect c sol tr reply sol' ∧
        b' = { b with solutions := b.solutions.set c.id.toNat sol' }) := by
  have hbegin {id : SolutionId} {argument : TokenizerArgument} {limits : ResourceLimits}
      (hid : c.id = id) (hc : b.opens c = some (argument, limits)) :
      (solution id (Solution.begin argument limits) >>= fun _ ↦ pure none).Ensures b
        (fun tr o b' ↦ ∀ reply, o = .returned reply →
          ∃ sol sol', b.solutions[c.id.toNat]? = some sol ∧ b.Effect c sol tr reply sol' ∧
            b' = { b with solutions := b.solutions.set c.id.toNat sol' }) := by
    refine (solution_returned b id).mono (fun tr o b' h reply ho ↦ ?_)
    obtain ⟨sol, sol', ⟨⟩, hsol, he, rfl, rfl⟩ := h reply ho
    obtain ⟨htok, rfl, hb⟩ := Solution.begin_spec sol argument limits _ _ _ he rfl
    exact ⟨sol, sol', by rw [hid, hsol], .begun hc htok hb, by rw [hid]⟩
  cases c with
  | begin₁ id =>
    simp only [run, begin₁, begin₂, begin₃, bind_assoc, ensures_get_bind]
    exact hbegin rfl rfl
  | begin₂ id argument =>
    simp only [run, begin₂, begin₃, bind_assoc, ensures_get_bind]
    exact hbegin rfl rfl
  | begin₃ id argument limits => exact hbegin rfl rfl
  | send id msg =>
    refine (solution_returned b id).mono (fun tr o b' h reply ho ↦ ?_)
    obtain ⟨sol, sol', ⟨⟩, hsol, he, rfl, rfl⟩ := h reply ho
    obtain ⟨htok, rfl, rfl⟩ := Solution.send_spec sol msg _ _ _ he rfl
    exact ⟨sol, _, hsol, .sent htok, rfl⟩
  | end' id discardRemaining =>
    refine (solution_returned b id).mono (fun tr o b' h reply ho ↦ ?_)
    obtain ⟨sol, sol', result, hsol, he, rfl, rfl⟩ := h reply ho
    obtain ⟨htok, hended⟩ := Solution.end_spec sol discardRemaining _ _ _ he result rfl
    exact ⟨sol, sol', hsol, .ended htok hended, rfl⟩
  | terminate id =>
    refine (solution_returned b id).mono (fun tr o b' h reply ho ↦ ?_)
    obtain ⟨sol, sol', ⟨⟩, hsol, he, rfl, rfl⟩ := h reply ho
    obtain ⟨⟨status, rfl⟩, rfl⟩ := Solution.terminate_spec sol _ _ _ he rfl
    exact ⟨sol, _, hsol, .terminated, rfl⟩

/-- One command, inverted: it works on the record of the solution it names and leaves
everything else as it is. -/
theorem answers_cases {b b' : BrokerImpl lib} {x : Exchange} (h : Answers b x b') :
    ∃ sol sol' reply, b.solutions[x.command.id.toNat]? = some sol ∧
      x.outcome = .returned reply ∧ b.Effect x.command sol x.trace reply sol' ∧
        b' = { b with solutions := b.solutions.set x.command.id.toNat sol' } := by
  obtain ⟨hs, reply, hr⟩ := h
  obtain ⟨sol, sol', hsol, he, hb⟩ := run_spec b x.command _ _ _ hs reply hr
  exact ⟨sol, sol', reply, hsol, hr, he, hb⟩

/-- One command, however it is left: it does its work on the record of the solution it names,
if there is one. -/
theorem serves_cases {b b' : BrokerImpl lib} {x : Exchange} (h : Serves b x b') :
    (∃ sol sol', b.solutions[x.command.id.toNat]? = some sol ∧
      (b.work x.command).Executes sol x.trace x.outcome sol' ∧
        b' = { b with solutions := b.solutions.set x.command.id.toNat sol' }) ∨
    b.solutions[x.command.id.toNat]? = none ∧ b' = b ∧ x.trace = [] ∧
      x.outcome = .raised (.abort "id < solutions_.size()") := by
  obtain ⟨env, henv⟩ := h
  cases hsol : b.solutions[x.command.id.toNat]? with
  | none =>
    rw [run_work, run_solution_absent hsol, Execution.mk.injEq] at henv
    obtain ⟨ho, hb, htr⟩ := henv
    exact .inr ⟨rfl, hb.symm, htr.symm, ho.symm⟩
  | some sol =>
    rw [run_work, run_solution hsol, Execution.mk.injEq] at henv
    obtain ⟨ho, hb, htr⟩ := henv
    refine .inl ⟨sol, _, rfl, ⟨env, ?_⟩, hb.symm⟩
    rw [← ho, ← htr]

theorem serves_frame {b b' : BrokerImpl lib} {x : Exchange} (h : Serves b x b') {j : ℕ}
    (hj : j ≠ x.command.id.toNat) : b'.solutions[j]? = b.solutions[j]? := by
  rcases serves_cases h with ⟨sol, sol', -, -, rfl⟩ | ⟨-, rfl, -⟩
  · exact List.getElem?_set_ne hj.symm
  · rfl

theorem serves_opens {b b' : BrokerImpl lib} {x : Exchange} (h : Serves b x b') :
    b'.opens = b.opens := by
  rcases serves_cases h with ⟨sol, sol', -, -, rfl⟩ | ⟨-, rfl, -⟩
  · funext c
    cases c <;> rfl
  · rfl

/-- One command, seen from the solution `id`: either it works on its record, or it leaves it
alone. -/
theorem serves_at {b b' : BrokerImpl lib} {x : Exchange} (h : Serves b x b') {id : SolutionId}
    {sol : Solution lib} (hsol : b.solutions[id.toNat]? = some sol) :
    (x.command.id = id ∧ ∃ sol', (b.work x.command).Executes sol x.trace x.outcome sol' ∧
      b'.solutions[id.toNat]? = some sol') ∨
    x.command.id ≠ id ∧ b'.solutions[id.toNat]? = some sol := by
  by_cases hid : x.command.id = id
  · subst hid
    rcases serves_cases h with ⟨sol₀, sol', hsol₀, hwork, rfl⟩ | ⟨hnone, -⟩
    · obtain rfl : sol = sol₀ := Option.some.inj (hsol.symm.trans hsol₀)
      have hlt := (List.getElem?_eq_some_iff.mp hsol).1
      exact .inl ⟨rfl, sol', hwork, List.getElem?_set_self hlt⟩
    · rw [hsol] at hnone
      cases hnone
  · have hne : id.toNat ≠ x.command.id.toNat := fun h ↦ hid (UInt64.toNat_inj.mp h).symm
    rw [serves_frame h hne]
    exact .inr ⟨hid, hsol⟩

theorem Effect.process_eq {b : BrokerImpl lib} {c : Command} {sol sol' : Solution lib}
    {tr : List Event} {reply : Option Result} (h : b.Effect c sol tr reply sol') :
    sol'.process = sol.process := by
  cases h with
  | begun hc htok hb => exact hb.process_eq
  | sent htok => rfl
  | ended htok he => exact he.process_eq
  | terminated => rfl

theorem Effect.addresses {b : BrokerImpl lib} {c : Command} {sol sol' : Solution lib}
    {tr : List Event} {reply : Option Result} (h : b.Effect c sol tr reply sol') :
    ∀ e ∈ tr, e.Addresses sol.process := by
  cases h with
  | begun hc htok hb => simp [Event.Addresses]
  | sent htok => simp
  | ended htok he => exact he.addresses
  | terminated => simp [Event.Addresses]

theorem answers_processes {b b' : BrokerImpl lib} {x : Exchange} (h : Answers b x b') :
    b'.solutions.map (·.process) = b.solutions.map (·.process) := by
  obtain ⟨sol, sol', reply, hsol, -, he, rfl⟩ := answers_cases h
  obtain ⟨hlt, rfl⟩ := List.getElem?_eq_some_iff.mp hsol
  have hlt' : x.command.id.toNat < (b.solutions.map (·.process)).length := by simpa using hlt
  have hself := List.set_getElem_self hlt'
  rw [List.getElem_map] at hself
  rw [List.map_set, he.process_eq, hself]

/-- One command, seen from the solution `id`: either it is addressed to it, or it leaves
it alone and makes the calls of another process. -/
theorem answers_at {b b' : BrokerImpl lib} {x : Exchange} (h : Answers b x b') {id : SolutionId}
    {sol : Solution lib} (hsol : b.solutions[id.toNat]? = some sol) :
    (x.command.id = id ∧ ∃ sol' reply, x.outcome = .returned reply ∧
      b.Effect x.command sol x.trace reply sol' ∧ b'.solutions[id.toNat]? = some sol') ∨
    x.command.id ≠ id ∧ b'.solutions[id.toNat]? = some sol ∧
      ∃ other, b.solutions[x.command.id.toNat]? = some other ∧
        ∀ e ∈ x.trace, e.Addresses other.process := by
  obtain ⟨other, other', reply, hother, hr, he, rfl⟩ := answers_cases h
  by_cases hid : x.command.id = id
  · subst hid
    obtain rfl : sol = other := Option.some.inj (hsol.symm.trans hother)
    have hlt := (List.getElem?_eq_some_iff.mp hsol).1
    exact .inl ⟨rfl, other', reply, hr, he, List.getElem?_set_self hlt⟩
  · have hne : x.command.id.toNat ≠ id.toNat := fun h ↦ hid (UInt64.toNat_inj.mp h)
    refine .inr ⟨hid, ?_, other, hother, he.addresses⟩
    rw [← hsol]
    exact List.getElem?_set_ne hne

/-- Carry out the commands of a script, each with the answers that the environment has in
store for it. -/
def replay (b : BrokerImpl lib) : List (Command × List Answer) → List Exchange × BrokerImpl lib
  | [] => ([], b)
  | (command, env) :: script =>
    let x := (run command).run b env
    let rest := replay x.state script
    (⟨command, x.outcome, x.trace⟩ :: rest.1, rest.2)

theorem replay_serves (b : BrokerImpl lib) (script : List (Command × List Answer)) :
    Path Serves b (b.replay script).1 (b.replay script).2 := by
  induction script generalizing b with
  | nil => exact .nil b
  | cons entry script ih => exact .cons (executes_run (run entry.1) b entry.2) (ih _)

theorem replay_path (b : BrokerImpl lib) (script : List (Command × List Answer))
    (h : ∀ x ∈ (b.replay script).1, ∃ reply, x.outcome = .returned reply) :
    Path Answers b (b.replay script).1 (b.replay script).2 := by
  induction script generalizing b with
  | nil => exact .nil b
  | cons entry script ih =>
    obtain ⟨command, env⟩ := entry
    simp only [replay, List.forall_mem_cons] at h
    exact .cons ⟨executes_run (run command) b env, h.1⟩ (ih _ h.2)

/-- The calls of a constructor that returns. -/
inductive Startup : List Process → List Event → Prop
  | nil : Startup [] []
  | cons {p : Process} {ps : List Process} {tr : List Event} {ice : Killer.Status}
      {inFlags outFlags : ℕ} :
      Startup ps tr → Startup (p :: ps) (.killer .FREEZE p.id (.ok ice) ::
        (nonblocking p.inFd inFlags ++ nonblocking p.outFd outFlags ++ tr))

def readySolution (limits : ResourceLimits) (process : Process) : Solution lib :=
  { Solution.ofProcess process with resourceLimits := limits }

def ready (options : Options) : BrokerImpl lib :=
  { (new options : BrokerImpl lib) with
    solutions := options.solutions.map (readySolution options.defaultResourceLimits) }

theorem setnonblock_spec {σ : Type} (s : σ) (fd : Fd) :
    (setnonblock fd : Calls σ Unit).Ensures s (fun tr o s' ↦ o = .returned () →
      ∃ flags, tr = nonblocking fd flags ∧ s' = s) := by
  simp only [setnonblock, fcntlGetfl, fcntlSetfl, bind_assoc, ensures_ask_bind,
    ensures_checked_bind, ensures_checked]
  refine ⟨by simp, fun m ↦ ⟨fun flags hm ↦ ⟨by simp, fun m' ↦ ⟨fun _ hm' _ ↦ ?_, by simp⟩⟩,
    by simp⟩⟩
  rw [hm, hm']
  exact ⟨flags, rfl, trivial⟩

theorem prepare_spec (b : BrokerImpl lib) {i : ℕ} {sol : Solution lib}
    (hsol : b.solutions[i]? = some sol) :
    (prepare i).Ensures b (fun tr o b' ↦ o = .returned () →
      (∃ ice inFlags outFlags, tr = .killer .FREEZE sol.process.id (.ok ice) ::
        (nonblocking sol.process.inFd inFlags ++ nonblocking sol.process.outFd outFlags)) ∧
      b' = { b with solutions :=
        b.solutions.set i { sol with resourceLimits := b.defaultResourceLimits } }) := by
  simp only [prepare, ensures_get_bind]
  unfold solutionAt
  refine Ensures.focus (fun sol₀ h ↦ ?_) (fun h ↦ by simp [hsol] at h)
  obtain rfl : sol = sol₀ := Option.some.inj (hsol.symm.trans h)
  simp only [Solution.freeze, bind_assoc, ensures_get_bind, ensures_killerRequest_bind,
    ensures_assert_bind, pure_bind]
  refine ⟨by simp, fun ice ↦ ⟨fun _ ↦ ?_, by simp⟩, by simp⟩
  refine (setnonblock_spec sol _).sequence (fun tr _ t ht ↦ ?_) ?_ ?_
  · obtain ⟨inFlags, rfl, rfl⟩ := ht rfl
    refine (setnonblock_spec _ _).sequence (fun tr' _ t' ht' ↦ ?_) ?_ ?_
    · obtain ⟨outFlags, rfl, rfl⟩ := ht' rfl
      rw [ensures_modify, List.append_nil]
      exact fun _ ↦ ⟨⟨ice, inFlags, outFlags, rfl⟩, rfl⟩
    · exact fun _ _ _ _ h ↦ by cases h
    · exact fun _ _ _ h ↦ by cases h
  · exact fun _ _ _ _ h ↦ by cases h
  · exact fun _ _ _ h ↦ by cases h

theorem prepareAll_spec (rest : List Process) (done : List (Solution lib)) (b : BrokerImpl lib)
    (hb : b.solutions = done ++ rest.map Solution.ofProcess) :
    ((List.range' done.length rest.length).forM prepare).Ensures b (fun tr o b' ↦
      o = .returned PUnit.unit → Startup rest tr ∧
        b' = { b with solutions :=
          done ++ rest.map (readySolution b.defaultResourceLimits) }) := by
  induction rest generalizing done b with
  | nil =>
    refine ensures_pure.mpr (fun _ ↦ ⟨.nil, ?_⟩)
    cases b
    simpa using hb
  | cons p rest ih =>
    have hsol : b.solutions[done.length]? = some (Solution.ofProcess p) := by simp [hb]
    simp only [List.length_cons, List.range'_succ]
    refine (prepare_spec b hsol).sequence ?_ ?_ ?_
    · intro tr _ b' h
      obtain ⟨⟨ice, inFlags, outFlags, rfl⟩, rfl⟩ := h rfl
      have hrec := ih (done ++ [readySolution b.defaultResourceLimits p])
        { b with
          solutions := b.solutions.set done.length (readySolution b.defaultResourceLimits p) }
        (by simp [hb])
      rw [List.length_append, List.length_singleton] at hrec
      refine hrec.mono (fun tr' o b'' h ho ↦ ?_)
      obtain ⟨hstart, rfl⟩ := h ho
      exact ⟨.cons hstart, by simp⟩
    · exact fun _ _ _ _ h ↦ by cases h
    · exact fun _ _ _ h ↦ by cases h

def Started (options : Options) (startup : List Event) (b : BrokerImpl lib) : Prop :=
  construct.Executes (new options) startup (.returned ()) b

theorem started_spec {options : Options} {startup : List Event} {b : BrokerImpl lib}
    (h : Started options startup b) : Startup options.solutions startup ∧ b = ready options := by
  have hspec := prepareAll_spec options.solutions [] (new options : BrokerImpl lib) rfl
  have hlen : (new options : BrokerImpl lib).solutions.length = options.solutions.length := by
    simp [new]
  have hrun : construct.Ensures (new options : BrokerImpl lib) (fun tr o b ↦
      o = .returned () → Startup options.solutions tr ∧ b = ready options) := by
    simp only [construct, ensures_get_bind, hlen, List.range_eq_range']
    exact hspec
  exact hrun _ _ _ h rfl

theorem ready_processes (options : Options) :
    (ready options : BrokerImpl lib).solutions.map (·.process) = options.solutions := by
  simp [ready, readySolution, Solution.ofProcess, Function.comp_def]

theorem ready_solution {options : Options} {i : ℕ} {process : Process}
    (h : options.solutions[i]? = some process) :
    (ready options : BrokerImpl lib).solutions[i]? =
      some (readySolution options.defaultResourceLimits process) := by
  simp [ready, h]

theorem processes_eq {options : Options} {startup : List Event} {b₀ b : BrokerImpl lib}
    {h : List Exchange} (h₀ : Started options startup b₀) (hp : Path Answers b₀ h b) :
    b.solutions.map (·.process) = options.solutions := by
  apply hp.preserves (I := fun b : BrokerImpl lib ↦
    b.solutions.map (·.process) = options.solutions)
  · exact fun _ _ _ hx hb ↦ (answers_processes hx).trans hb
  · rw [(started_spec h₀).2]
    exact ready_processes options

def Options.single : Options where
  protocol := .TEXT
  tokenizer := []
  solutions := [⟨4, 5, 10⟩]
  killer := ⟨6, 7, 12⟩
  judge := ⟨8, 9, 11⟩
  defaultResourceLimits := {}
  defaultTokenizerArgument := [10]

theorem single_started : Started Options.single
    ([.killer .FREEZE 10 (.ok .OK)] ++ nonblocking 4 0 ++ nonblocking 5 0)
    (ready Options.single : BrokerImpl lib) := by
  refine ⟨List.replicate 5 {}, ?_⟩
  cbv

/-- No descriptor serves twice, as every pipe of a game is a new one. -/
def Options.WellFormed (options : Options) : Prop :=
  (options.solutions.flatMap (fun process ↦ [process.inFd, process.outFd])).Nodup

theorem single_wellFormed : Options.single.WellFormed := by
  simp [Options.WellFormed, Options.single]

theorem Options.WellFormed.disjoint {options : Options} (hw : options.WellFormed) {i j : ℕ}
    {p q : Process} (hi : options.solutions[i]? = some p) (hj : options.solutions[j]? = some q)
    (hij : i ≠ j) : p.inFd ≠ q.inFd ∧ p.outFd ≠ q.outFd := by
  have hpair := (List.nodup_flatMap.mp hw).2
  obtain ⟨hi', rfl⟩ := List.getElem?_eq_some_iff.mp hi
  obtain ⟨hj', rfl⟩ := List.getElem?_eq_some_iff.mp hj
  have hne : ∀ k l (hk : k < options.solutions.length) (hl : l < options.solutions.length),
      k < l → options.solutions[k].inFd ≠ options.solutions[l].inFd ∧
        options.solutions[k].outFd ≠ options.solutions[l].outFd := by
    intro k l hk hl hkl
    have h := List.pairwise_iff_getElem.mp hpair k l hk hl hkl
    simp only [Function.onFun, List.disjoint_cons_left, List.mem_cons, not_or] at h
    exact ⟨h.1.1, h.2.1.2.1⟩
  rcases Nat.lt_or_gt_of_ne hij with h | h
  · exact hne i j hi' hj' h
  · have h' := hne j i hj' hi' h
    exact ⟨h'.1.symm, h'.2.symm⟩

theorem Options.WellFormed.owner {options : Options} (hw : options.WellFormed) {p q : Process}
    {fd : Fd} (hp : p ∈ options.solutions) (hq : q ∈ options.solutions)
    (hfp : fd = p.inFd ∨ fd = p.outFd) (hfq : fd = q.inFd ∨ fd = q.outFd) : p = q := by
  have hpair := (List.nodup_flatMap.mp hw).2
  by_contra hne
  have hsymm : Std.Symm (Function.onFun List.Disjoint
      (fun process : Process ↦ [process.inFd, process.outFd])) :=
    ⟨fun _ _ h _ ha hb ↦ h hb ha⟩
  have hdisj := hpair.forall hp hq hne
  have hmem : fd ∈ [p.inFd, p.outFd] := by simpa using hfp
  exact hdisj hmem (by simpa using hfq)

end FlowctlGame.BrokerImpl
