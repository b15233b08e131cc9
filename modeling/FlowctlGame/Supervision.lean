import FlowctlGame.Service
import FlowctlGame.Discipline
import FlowctlGame.Turns

namespace FlowctlGame

open Interaction Program Unistd Broker

variable {lib : TokenizerLibrary} {id : Killer.Id} {tr : List Event}

theorem lastRequest_mem {act : Killer.Act} (h : lastRequest id tr = some act) :
    ∃ r, .killer act id r ∈ tr := by
  obtain ⟨e, hmem, he⟩ := List.mem_filterMap.mp (List.mem_of_getLast? h)
  cases e with
  | killer act' id' r =>
    obtain ⟨rfl, rfl⟩ : id' = id ∧ act' = act := by
      simpa [Event.request] using he
    exact ⟨r, hmem⟩
  | _ => cases he

def Stopping (tr : List Event) : Prop := ∀ id r, .killer .UNFREEZE id r ∉ tr

theorem Stopping.lastRequest_ne (h : Stopping tr) : lastRequest id tr ≠ some .UNFREEZE := by
  intro hlast
  obtain ⟨r, hmem⟩ := lastRequest_mem hlast
  exact h id r hmem

namespace Solution

def stopping (σ : Type) : Contract Event σ Failure where
  invariant _ := True
  allowed e := ∀ id r, e ≠ .killer .UNFREEZE id r
  fatal _ := False
  error _ := True

theorem stops {σ α : Type} {m : Calls σ α} (h : m.Meets (stopping σ)) {s s' : σ}
    {o : Outcome Failure α} (hx : m.Executes s tr o s') : Stopping tr :=
  fun id r hmem ↦ (h s trivial _ _ _ hx).2.1 _ hmem id r rfl

theorem meets_assert {σ : Type} (p : Prop) [Decidable p] (msg : String) :
    (assert p msg : Calls σ Unit).Meets (stopping σ) := by
  unfold assert
  split
  · exact meets_pure ()
  · exact meets_raise trivial

theorem meets_request {σ : Type} {act : Killer.Act} (hact : act ≠ .UNFREEZE) (id : Killer.Id) :
    (killerRequest act id : Calls σ Killer.Status).Meets (stopping σ) := by
  refine Meets.bind (meets_ask (fun r id' r' heq ↦ hact ?_)) (fun r ↦ ?_)
  · cases heq
    rfl
  · cases r with
    | ok status => exact meets_pure status
    | error e => exact meets_raise trivial

theorem focus_stops {σ τ α : Type} {m : Calls τ α} (h : m.Meets (stopping τ))
    (look : σ → Option τ) (put : τ → σ → σ) (absent : Failure) :
    (focus look put absent m).Meets (stopping σ) := by
  refine fun s _ ↦ Ensures.focus (fun t _ ↦ (h t trivial).mono (fun tr o t' hm ↦ ?_)) (fun _ ↦ ?_)
  · exact ⟨trivial, hm.2.1, fun _ _ ↦ .inl trivial⟩
  · exact ⟨trivial, List.forall_mem_nil _, fun _ _ ↦ .inl trivial⟩

theorem begin_stops (argument : TokenizerArgument) (limits : ResourceLimits) :
    (begin argument limits : Calls (Solution lib) Unit).Meets (stopping (Solution lib)) := by
  have hcall (data : Bytes) :
      (callTokenizer data : Calls (Solution lib) Tokenizer.Result).Meets (stopping _) := by
    refine meets_get_bind (fun sol _ ↦ ?_)
    cases sol.tokenizer with
    | none => exact meets_raise trivial
    | some tokenizer =>
      dsimp only
      cases lib.call tokenizer data with
      | error msg => exact meets_raise trivial
      | ok x => exact Meets.bind (meets_modify (fun _ _ ↦ trivial)) (fun _ ↦ meets_pure x.1)
  have hnew : (newTokenizer argument : Calls (Solution lib) lib.Instance).Meets (stopping _) := by
    refine Meets.bind (meets_ask (fun _ _ _ h ↦ by cases h)) (fun allocated ↦ ?_)
    cases lib.newTokenizer argument with
    | error msg => exact meets_raise trivial
    | ok tokenizer =>
      cases allocated with
      | true => exact meets_pure tokenizer
      | false => exact meets_raise trivial
  refine meets_get_bind (fun sol _ ↦ (meets_assert _ _).bind (fun _ ↦ hnew.bind (fun _ ↦ ?_)))
  refine Meets.bind (meets_modify (fun _ _ ↦ trivial)) (fun _ ↦ ?_)
  split
  · refine (hcall _).bind (fun result ↦ Meets.bind (meets_modify (fun _ _ ↦ trivial)) (fun _ ↦ ?_))
    cases result.status with
    | FAIL => exact meets_pure ()
    | ACCEPTED | CONTINUE => exact meets_modify (fun _ _ ↦ trivial)
  · exact meets_pure ()

theorem freeze_stops : (freeze : Calls (Solution lib) Killer.Status).Meets (stopping _) := by
  refine meets_get_bind (fun sol _ ↦ ?_)
  refine (meets_request (fun h ↦ by cases h) _).bind (fun status ↦ ?_)
  exact (meets_assert _ _).bind (fun _ ↦ meets_pure status)

end Solution

namespace BrokerImpl

variable {b b' : BrokerImpl lib} {x : Exchange}

/-- Whatever comes of a command, only an `end` thaws a process, and that is the one of the
solution it names. -/
theorem serves_thaw (hx : Serves b x b') {r : Except Exception Killer.Status}
    (hmem : .killer .UNFREEZE id r ∈ x.trace) : ∃ i discardRemaining sol,
      x.command = .end' i discardRemaining ∧ b.solutions[i.toNat]? = some sol ∧
        sol.process.id = id := by
  rcases serves_cases hx with ⟨sol, sol', hsol, hwork, -⟩ | ⟨-, -, htrace, -⟩
  · have hserving : Solution.Serving (Solution.contract lib sol.process) :=
      Solution.contract_serving sol.process
    have hid : id = sol.process.id :=
      (hserving.meets_work b x.command sol rfl _ _ _ hwork).2.1 _ hmem
    generalize hc : x.command = c at hsol hwork
    have hstops (h : (b.work c).Meets (Solution.stopping _)) : False :=
      Solution.stops h hwork id r hmem
    cases c with
    | begin₁ | begin₂ | begin₃ =>
      exact (hstops ((Solution.begin_stops _ _).bind (fun _ ↦ meets_pure _))).elim
    | send =>
      refine (hstops (Meets.bind (meets_get_bind (fun sol _ ↦ ?_)) (fun _ ↦ meets_pure _))).elim
      exact (Solution.meets_assert _ _).bind (fun _ ↦ meets_modify (fun _ _ ↦ trivial))
    | end' i discardRemaining => exact ⟨i, discardRemaining, sol, rfl, hsol, hid.symm⟩
    | terminate =>
      refine (hstops (Meets.bind (meets_get_bind (fun sol _ ↦ ?_)) (fun _ ↦ meets_pure _))).elim
      refine (Solution.meets_request (fun h ↦ by cases h) _).bind (fun _ ↦ ?_)
      exact meets_modify (fun _ _ ↦ trivial)
  · rw [htrace] at hmem
    cases hmem

theorem construct_stops {o : Outcome Failure Unit} (h : construct.Executes b tr o b') :
    Stopping tr := by
  have hnonblock (fd : Fd) : (setnonblock fd : Calls (Solution lib) Unit).Meets
      (Solution.stopping _) := by
    have hcall {α : Type} {reply : Answer → Except Errno α} {event : Except Errno α → Event}
        (h : ∀ r id status, event r ≠ .killer .UNFREEZE id status) :
        (ask reply event >>= checked "fcntl" : Calls (Solution lib) α).Meets
          (Solution.stopping _) := by
      refine Meets.bind (meets_ask h) (fun r ↦ ?_)
      cases r with
      | ok => exact meets_pure _
      | error => exact meets_raise trivial
    exact (hcall (fun _ _ _ h ↦ by cases h)).bind (fun _ ↦ hcall (fun _ _ _ h ↦ by cases h))
  have hprepare (i : ℕ) : (prepare i : Calls (BrokerImpl lib) Unit).Meets
      (Solution.stopping _) := by
    refine meets_get_bind (fun b _ ↦ Solution.focus_stops ?_ _ _ _)
    refine Solution.freeze_stops.bind (fun _ ↦ meets_get_bind (fun sol _ ↦ ?_))
    refine (hnonblock _).bind (fun _ ↦ (hnonblock _).bind (fun _ ↦ ?_))
    exact meets_modify (fun _ _ ↦ trivial)
  have hconstruct : (construct : Calls (BrokerImpl lib) Unit).Meets (Solution.stopping _) := by
    refine meets_get_bind (fun b _ ↦ ?_)
    induction List.range b.solutions.length with
    | nil => exact meets_pure _
    | cons i is ih => exact Meets.bind (hprepare i) (fun _ ↦ ih)
  exact Solution.stops hconstruct h

end BrokerImpl

namespace BrokerMain

open BrokerInterface

variable {casts : Casts} {b b' b₀ b₁ : BrokerImpl lib} {options : BrokerImpl.Options}

theorem rounds_answers {rounds : List Round} (h : Path (Served casts) b rounds b') :
    Path BrokerImpl.Answers b (rounds.map (·.exchange)) b' := by
  induction h with
  | nil => exact .nil _
  | cons hx _ ih =>
    obtain ⟨_, reply, -, -, ho, hserves, -⟩ := hx
    exact .cons ⟨hserves, reply, ho⟩ ih

theorem systems_rounds (rounds : List Round) :
    systems (rounds.flatMap Round.events) = (rounds.map (·.exchange)).flatMap (·.trace) := by
  induction rounds with
  | nil => rfl
  | cons x rounds ih => rw [List.flatMap_cons, systems_append, systems_events, ih]; rfl

/-- The process `id` runs in the `end` of a solution, which the judge has asked for and for
which it has got no reply. -/
def Awaited (casts : Casts) (options : BrokerImpl.Options) (id : Killer.Id) (tr : List Event) :
    Prop :=
  ∃ (past : List Event) (used : List (Option UInt8)) (events : List Unistd.Event)
    (i : SolutionId) (discardRemaining : Bool) (p : Process),
    tr = past ++ used.map .input ++ events.map .system ∧
      Received casts used (.replying (.end' i discardRemaining)) ∧
        options.solutions[i.toNat]? = some p ∧ p.id = id

/-- No two processes of the game run at a time, and one runs only if the judge waits for it. -/
structure Supervised (casts : Casts) (options : BrokerImpl.Options) (tr : List Event) : Prop where
  alone : ∀ id id', lastRequest id (systems tr) = some .UNFREEZE →
    lastRequest id' (systems tr) = some .UNFREEZE → id = id'
  awaited : ∀ id, lastRequest id (systems tr) = some .UNFREEZE → Awaited casts options id tr

theorem Supervised.of_stopped {tr : List Event}
    (h : ∀ id, lastRequest id (systems tr) ≠ some .UNFREEZE) : Supervised casts options tr :=
  ⟨fun id _ hid ↦ absurd hid (h id), fun id hid ↦ absurd hid (h id)⟩

theorem run_end {command : Command} {d : Dispatch} {i : SolutionId} {discardRemaining : Bool}
    (h : BrokerInterface.run casts command = .ok d) (hd : called d = .end' i discardRemaining) :
    d = .replying (.end' i discardRemaining) := by
  cases d with
  | replying c => rw [called] at hd; rw [hd]
  | quiet c =>
    rw [called] at hd
    subst hd
    unfold BrokerInterface.run at h
    repeat' split at h
    all_goals cases h

theorem supervised_call {past : List Event} {used : List (Option UInt8)} {d : Dispatch}
    {o : Outcome Unistd.Failure (Option Result)} {events : List Unistd.Event}
    (hpast : ∀ id, lastRequest id (systems past) ≠ some .UNFREEZE)
    (hmap : b.solutions.map (·.process) = options.solutions) (hrecv : Received casts used d)
    (hcall : BrokerImpl.Serves b ⟨called d, o, events⟩ b') :
    Supervised casts options (past ++ (used.map .input ++ events.map .system)) := by
  have hthaw {id : Killer.Id} (h : lastRequest id
      (systems (past ++ (used.map .input ++ events.map .system))) = some .UNFREEZE) :
      ∃ i discardRemaining sol, called d = .end' i discardRemaining ∧
        b.solutions[i.toNat]? = some sol ∧ sol.process.id = id := by
    rw [systems_append, systems_exchange, lastRequest_append] at h
    cases he : lastRequest id events with
    | none =>
      rw [he, Option.none_or] at h
      exact absurd h (hpast id)
    | some act =>
      rw [he, Option.some_or] at h
      cases h
      obtain ⟨r, hmem⟩ := lastRequest_mem he
      exact BrokerImpl.serves_thaw hcall hmem
  refine ⟨fun id id' hid hid' ↦ ?_, fun id hid ↦ ?_⟩
  · obtain ⟨i, _, sol, hd, hsol, rfl⟩ := hthaw hid
    obtain ⟨i', _, sol', hd', hsol', rfl⟩ := hthaw hid'
    rw [hd] at hd'
    cases hd'
    rw [Option.some.inj (hsol.symm.trans hsol')]
  · obtain ⟨i, discardRemaining, sol, hd, hsol, hid⟩ := hthaw hid
    have hprocess : options.solutions[i.toNat]? = some sol.process := by
      rw [← hmap, List.getElem?_map, hsol, Option.map_some]
    obtain ⟨command, ia, htakes, hrun⟩ := hrecv
    rw [run_end hrun hd] at hrun
    exact ⟨past, used, events, i, discardRemaining, sol.process, by rw [List.append_assoc],
      ⟨command, ia, htakes, hrun⟩, hprocess, hid⟩

theorem supervised_stands {past last : List Event} {o : Outcome Failure Empty}
    (hpast : ∀ id, lastRequest id (systems past) ≠ some .UNFREEZE)
    (hmap : b.solutions.map (·.process) = options.solutions) (h : Stands casts b last o b') :
    Supervised casts options (past ++ last) := by
  have hsilent {used : List (Option UInt8)} (id : Killer.Id) :
      lastRequest id (systems (past ++ used.map .input)) ≠ some .UNFREEZE := by
    rw [systems_append, systems_map_input, List.append_nil]
    exact hpast id
  cases h with
  | receiving => exact .of_stopped hsilent
  | unreadable => exact .of_stopped hsilent
  | refused => exact .of_stopped hsilent
  | calling hrecv hcall => exact supervised_call hpast hmap hrecv hcall
  | failing hrecv hcall => exact supervised_call hpast hmap hrecv hcall
  | sending hrecv hcall => exact supervised_call (d := .replying _) hpast hmap hrecv hcall
  | @unsendable used _ _ _ events _ _ hcall =>
    -- the broker has answered, so it has frozen the solution again
    have hturn := told (BrokerImpl.answers_turn hmap ⟨hcall, _, rfl⟩)
    apply Supervised.of_stopped
    intro id
    have hsystems : systems (past ++ (used.map .input ++ events.map .system ++ [.output [10]])) =
        systems past ++ events := by
      rw [systems_append, systems_append, systems_exchange]
      exact congrArg _ (List.append_nil _)
    rw [hsystems, lastRequest_append]
    cases he : lastRequest id events with
    | none =>
      rw [Option.none_or]
      exact hpast id
    | some act =>
      rw [Option.some_or, ← he]
      exact hturn id

theorem supervised {tr : List Event} {f : Outcome Failure Empty}
    (h : Course casts (BrokerImpl.new options) tr f b) : Supervised casts options tr := by
  cases h with
  | constructing hrun =>
    apply Supervised.of_stopped
    intro id
    rw [systems_map_system]
    exact (BrokerImpl.construct_stops hrun).lastRequest_ne
  | crashed hrun =>
    apply Supervised.of_stopped
    intro id
    rw [systems_map_system]
    exact (BrokerImpl.construct_stops hrun).lastRequest_ne
  | @serving startup rounds last _ b₀ b₁ _ hrun hrounds hlast =>
    have hanswers := rounds_answers hrounds
    have hmap := BrokerImpl.processes_eq hrun (.nil b₀)
    have hturns := (BrokerImpl.started_spec hrun).1.turn.append (BrokerImpl.run_turn hmap hanswers)
    refine supervised_stands (fun id ↦ ?_) (BrokerImpl.processes_eq hrun hanswers) hlast
    rw [systems_append, systems_map_system, systems_rounds]
    exact told hturns id

/-- At any moment of any run of the process, whatever the judge sends and however a command
fails. -/
theorem process_supervised {tr : List Event} {o : Outcome String ℕ}
    (h : (main casts).Executes (BrokerImpl.new options) tr o b) :
    Supervised casts options tr := by
  obtain ⟨f, hcourse, -⟩ := main_spec (BrokerImpl.new options) tr o b h
  exact supervised hcourse

def pairSession : Execution Event (BrokerImpl SplitChar.library) String ℕ :=
  (main decimalCasts).run (BrokerImpl.new BrokerImpl.Options.pair)
    (lineSession.quiet 10 ++ lineSession.typed (.begin₁ 1) ++ lineSession.quiet 1 ++
      lineSession.typed (.end₁ 1) ++ lineSession.quiet 2)

theorem process_supervised_pair :
    Supervised decimalCasts BrokerImpl.Options.pair pairSession.trace :=
  process_supervised (executes_run (main decimalCasts) _ _)

example : lastRequest 20 (systems pairSession.trace) = some .UNFREEZE := by decide +kernel

end BrokerMain

end FlowctlGame
