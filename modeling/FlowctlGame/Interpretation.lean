import FlowctlGame.BrokerMain
import FlowctlGame.Decoding

namespace FlowctlGame.BrokerMain

open Interaction Program Broker BrokerInterface
open BrokerTextInterface (Offers Refusal Whole interpret resultText)

variable {lib : TokenizerLibrary} {casts : Casts} {b b' b₀ b₁ : BrokerImpl lib}
  {tr : List Unistd.Event} {used more : List (Option UInt8)} {sent : Bytes}

def inputs (tr : List Event) : List (Option UInt8) :=
  tr.filterMap (fun | .input c => some c | _ => none)

def systems (tr : List Event) : List Unistd.Event :=
  tr.filterMap (fun | .system e => some e | _ => none)

def outputs (tr : List Event) : List Bytes :=
  tr.filterMap (fun | .output text => some text | _ => none)

section Projections

variable (past last : List Event) (input : List (Option UInt8)) (text : List Bytes)
  (events : List Unistd.Event)

@[simp]
theorem inputs_append : inputs (past ++ last) = inputs past ++ inputs last :=
  List.filterMap_append

@[simp]
theorem systems_append : systems (past ++ last) = systems past ++ systems last :=
  List.filterMap_append

@[simp]
theorem outputs_append : outputs (past ++ last) = outputs past ++ outputs last :=
  List.filterMap_append

@[simp]
theorem inputs_map_input : inputs (input.map .input) = input := by
  simp [inputs]

@[simp]
theorem inputs_map_system : inputs (events.map .system) = [] := by
  simp [inputs]

@[simp]
theorem inputs_map_output : inputs (text.map .output) = [] := by
  simp [inputs]

@[simp]
theorem systems_map_input : systems (input.map .input) = [] := by
  simp [systems]

@[simp]
theorem systems_map_system : systems (events.map .system) = events := by
  simp [systems]

@[simp]
theorem systems_map_output : systems (text.map .output) = [] := by
  simp [systems]

@[simp]
theorem outputs_map_input : outputs (input.map .input) = [] := by
  simp [outputs]

@[simp]
theorem outputs_map_system : outputs (events.map .system) = [] := by
  simp [outputs]

@[simp]
theorem outputs_map_output : outputs (text.map .output) = text := by
  simp [outputs]

@[simp]
theorem inputs_exchange : inputs (input.map .input ++ events.map .system) = input := by
  simp

@[simp]
theorem systems_exchange : systems (input.map .input ++ events.map .system) = events := by
  simp

@[simp]
theorem outputs_exchange : outputs (input.map .input ++ events.map .system) = [] := by
  simp

@[simp]
theorem inputs_events (x : Round) : inputs x.events = x.input := by
  simp [Round.events]

@[simp]
theorem systems_events (x : Round) : systems x.events = x.exchange.trace := by
  simp [Round.events]

@[simp]
theorem outputs_events (x : Round) : outputs x.events = x.output := by
  simp [Round.events]

end Projections

/-- A broker that is handed the requests themselves: its system calls and what it writes, up to
any moment. -/
inductive Obeys (casts : Casts) : BrokerImpl lib → List (Except Refusal Dispatch) →
    List Unistd.Event → List Bytes → Outcome Failure Empty → BrokerImpl lib → Prop
  | idle {b : BrokerImpl lib} {requests : List (Except Refusal Dispatch)} :
      Obeys casts b requests [] [] .pending b
  | refused {b : BrokerImpl lib} {e : BrokerInterface.Error}
      {requests : List (Except Refusal Dispatch)} :
      Obeys casts b (.error e.refusal :: requests) [] [] (.raised (.interface e)) b
  | calling {b b' : BrokerImpl lib} {d : Dispatch} {requests : List (Except Refusal Dispatch)}
      {tr : List Unistd.Event} (hcall : BrokerImpl.Serves b ⟨called d, .pending, tr⟩ b') :
      Obeys casts b (.ok d :: requests) tr [] .pending b'
  | failed {b b' : BrokerImpl lib} {d : Dispatch} {requests : List (Except Refusal Dispatch)}
      {tr : List Unistd.Event} {f : Unistd.Failure}
      (hcall : BrokerImpl.Serves b ⟨called d, .raised f, tr⟩ b') :
      Obeys casts b (.ok d :: requests) tr [] (.raised (.broker f)) b'
  | answered {b b' : BrokerImpl lib} {c : BrokerImpl.Command}
      {requests : List (Except Refusal Dispatch)} {tr : List Unistd.Event} {r : Result}
      (hcall : BrokerImpl.Serves b ⟨c, .returned (some r), tr⟩ b') :
      Obeys casts b (.ok (.replying c) :: requests) tr [] .pending b'
  | unnamed {b b' : BrokerImpl lib} {c : BrokerImpl.Command}
      {requests : List (Except Refusal Dispatch)} {tr : List Unistd.Event} {r : Result}
      (hcall : BrokerImpl.Serves b ⟨c, .returned (some r), tr⟩ b') (hr : ¬ r.status.Named) :
      Obeys casts b (.ok (.replying c) :: requests) tr [[10]]
        (.raised (.interface .badLexicalCast)) b'
  | next {b b' b'' : BrokerImpl lib} {d : Dispatch} {requests : List (Except Refusal Dispatch)}
      {tr tr' : List Unistd.Event} {reply : Option Result} {text text' : List Bytes}
      {o : Outcome Failure Empty}
      (hcall : BrokerImpl.Serves b ⟨called d, .returned reply, tr⟩ b')
      (hreplied : Replied casts d reply text) (hrest : Obeys casts b' requests tr' text' o b'') :
      Obeys casts b (.ok d :: requests) (tr ++ tr') (text ++ text') o b''

def written (casts : Casts) (r : Result) : Bytes :=
  if r.status.Named then resultText casts r else [10]

theorem sendResult_ok {r : Result} {text : Bytes}
    (h : BrokerTextInterface.sendResult casts r = .ok text) : text = written casts r := by
  by_cases hr : r.status.Named
  · rw [BrokerTextInterface.sendResult_eq hr] at h
    cases h
    simp [written, resultText, hr]
  · simp [BrokerTextInterface.sendResult, hr] at h

theorem sendResult_error {r : Result} {e : BrokerInterface.Error}
    (h : BrokerTextInterface.sendResult casts r = .error e) :
    e = .badLexicalCast ∧ ¬ r.status.Named := by
  by_cases hr : r.status.Named
  · rw [BrokerTextInterface.sendResult_eq hr] at h
    cases h
  · simp only [BrokerTextInterface.sendResult, hr, dite_false, Except.error.injEq] at h
    exact ⟨h.symm, hr⟩

/-- The lines of the stream are these requests, and nothing else. -/
def Plays (casts : Casts) (sent : Bytes) (done : List Dispatch) : Prop :=
  interpret casts sent = done.map .ok ++ [.error .endOfFileError]

theorem offers_received {d : Dispatch} (hoffer : Offers sent true (used ++ more))
    (hrecv : Received casts used d) :
    ∃ sent', interpret casts sent = .ok d :: interpret casts sent' ∧ Offers sent' true more ∧
      (Whole sent → Whole sent' ∧ none ∉ used) := by
  obtain ⟨command, ia, hrecv, hrun⟩ := hrecv
  cases BrokerTextInterface.reception hoffer hrecv with
  | returned hleft hinterpret hwhole =>
    rw [hrun] at hinterpret
    exact ⟨_, hinterpret, hleft, hwhole⟩

theorem offers_called {d : Dispatch} (hoffer : Offers sent true used)
    (hrecv : Received casts used d) : ∃ requests, interpret casts sent = .ok d :: requests ∧
      (Whole sent → none ∉ used) := by
  rw [← List.append_nil used] at hoffer
  obtain ⟨sent', hinterpret, -, hwhole⟩ := offers_received hoffer hrecv
  exact ⟨_, hinterpret, fun h ↦ (hwhole h).2⟩

theorem obeys_stands {last : List Event} {o : Outcome Failure Empty}
    (hlast : Stands casts b last o b') (hoffer : Offers sent true (inputs last)) :
    Obeys casts b (interpret casts sent) (systems last) (outputs last) o b' ∧
      (Whole sent → none ∈ inputs last → o = .raised (.interface .endOfFileError) ∧
        Plays casts sent []) := by
  cases hlast with
  | receiving hrecv =>
    rw [inputs_map_input] at hoffer ⊢
    rw [systems_map_input, outputs_map_input]
    refine ⟨.idle, fun hwhole hnone ↦ absurd hnone ?_⟩
    exact BrokerTextInterface.offers_pending hoffer hwhole hrecv
  | @unreadable used _ _ hrecv =>
    rw [inputs_map_input] at hoffer ⊢
    rw [systems_map_input, outputs_map_input]
    rw [← List.append_nil used] at hoffer
    cases BrokerTextInterface.reception hoffer hrecv with
    | raised hinterpret hwhole =>
      refine ⟨hinterpret ▸ .refused, fun h hmem ↦ ?_⟩
      obtain ⟨rfl, rfl⟩ := hwhole h hmem
      exact ⟨rfl, hinterpret⟩
  | @refused used _ _ _ hrecv hrun =>
    rw [inputs_map_input] at hoffer ⊢
    rw [systems_map_input, outputs_map_input]
    rw [← List.append_nil used] at hoffer
    cases BrokerTextInterface.reception hoffer hrecv with
    | returned _ hinterpret hwhole =>
      rw [hinterpret, hrun]
      exact ⟨.refused, fun h hmem ↦ absurd hmem (hwhole h).2⟩
  | calling hrecv hcall =>
    rw [inputs_exchange] at hoffer ⊢
    rw [systems_exchange, outputs_exchange]
    obtain ⟨requests, hinterpret, hnone⟩ := offers_called hoffer hrecv
    rw [hinterpret]
    exact ⟨.calling hcall, fun h hmem ↦ absurd hmem (hnone h)⟩
  | failing hrecv hcall =>
    rw [inputs_exchange] at hoffer ⊢
    rw [systems_exchange, outputs_exchange]
    obtain ⟨requests, hinterpret, hnone⟩ := offers_called hoffer hrecv
    rw [hinterpret]
    exact ⟨.failed hcall, fun h hmem ↦ absurd hmem (hnone h)⟩
  | sending hrecv hcall =>
    rw [inputs_exchange] at hoffer ⊢
    rw [systems_exchange, outputs_exchange]
    obtain ⟨requests, hinterpret, hnone⟩ := offers_called hoffer hrecv
    rw [hinterpret]
    exact ⟨.answered hcall, fun h hmem ↦ absurd hmem (hnone h)⟩
  | @unsendable used _ r _ events _ hrecv hcall hsend =>
    have hin : inputs (used.map .input ++ events.map .system ++ [.output [10]]) = used := by
      rw [inputs_append, inputs_exchange]
      exact List.append_nil _
    have hsys : systems (used.map .input ++ events.map .system ++ [.output [10]]) = events := by
      rw [systems_append, systems_exchange]
      exact List.append_nil _
    have hout : outputs (used.map .input ++ events.map .system ++ [.output [10]]) = [[10]] := by
      rw [outputs_append, outputs_exchange]
      rfl
    rw [hin] at hoffer ⊢
    rw [hsys, hout]
    obtain ⟨requests, hinterpret, hnone⟩ := offers_called hoffer hrecv
    obtain ⟨rfl, hr⟩ := sendResult_error hsend
    rw [hinterpret]
    exact ⟨.unnamed hcall hr, fun h hmem ↦ absurd hmem (hnone h)⟩

theorem obeys_rounds {rounds : List Round} {last : List Event} {o : Outcome Failure Empty}
    (hrounds : Path (Served casts) b rounds b₁) (hlast : Stands casts b₁ last o b')
    (hoffer : Offers sent true (inputs (rounds.flatMap Round.events ++ last))) :
    Obeys casts b (interpret casts sent) (systems (rounds.flatMap Round.events ++ last))
      (outputs (rounds.flatMap Round.events ++ last)) o b' ∧
        (Whole sent → none ∈ inputs (rounds.flatMap Round.events ++ last) →
          o = .raised (.interface .endOfFileError) ∧ ∃ done, Plays casts sent done) := by
  induction hrounds generalizing sent with
  | nil =>
    obtain ⟨hobeys, hend⟩ := obeys_stands hlast hoffer
    exact ⟨hobeys, fun h hmem ↦ ⟨(hend h hmem).1, [], (hend h hmem).2⟩⟩
  | @cons _ _ _ x rounds hx _ ih =>
    rw [List.flatMap_cons, List.append_assoc] at hoffer ⊢
    rw [inputs_append, inputs_events] at hoffer ⊢
    rw [systems_append, systems_events, outputs_append, outputs_events]
    obtain ⟨d, reply, hrecv, hcommand, houtcome, hserves, hreplied⟩ := hx
    obtain ⟨input, ⟨command, outcome, trace⟩, text⟩ := x
    dsimp only at hcommand houtcome hreplied
    subst houtcome hcommand
    obtain ⟨sent', hinterpret, hrest, hwhole⟩ := offers_received hoffer hrecv
    obtain ⟨hobeys, hend⟩ := ih hlast hrest
    rw [hinterpret]
    refine ⟨.next hserves hreplied hobeys, fun h hmem ↦ ?_⟩
    obtain ⟨hwhole', hnone⟩ := hwhole h
    obtain ⟨ho, done, hplays⟩ := hend hwhole' ((List.mem_append.mp hmem).resolve_left hnone)
    exact ⟨ho, d :: done, by rw [Plays, hinterpret, hplays]; rfl⟩

theorem Obeys.answers {done : List Dispatch} {requests : List (Except Refusal Dispatch)}
    {text : List Bytes} {o : Outcome Failure Empty} (h : Obeys casts b requests tr text o b')
    (hrequests : requests = done.map .ok ++ [.error .endOfFileError])
    (ho : o = .raised (.interface .endOfFileError)) :
    ∃ answered, Path BrokerImpl.Answers b answered b' ∧
      answered.map (·.command) = done.map called ∧ answered.flatMap (·.trace) = tr := by
  induction h generalizing done with
  | idle => cases ho
  | refused =>
    cases done with
    | nil => exact ⟨[], .nil _, rfl, rfl⟩
    | cons => cases hrequests
  | calling => cases ho
  | failed => cases ho
  | answered => cases ho
  | unnamed => cases ho
  | @next _ _ _ d _ tr _ reply _ _ _ hcall _ _ ih =>
    cases done with
    | nil => cases hrequests
    | cons d' done =>
      cases hrequests
      obtain ⟨answered, hpath, hcommands, htraces⟩ := ih rfl ho
      refine ⟨⟨called d, .returned reply, tr⟩ :: answered, .cons ⟨hcall, reply, rfl⟩ hpath, ?_, ?_⟩
      · rw [List.map_cons, List.map_cons, hcommands]
      · rw [List.flatMap_cons, htraces]

/-- The same, from the constructor on. -/
inductive Operates (casts : Casts) (options : BrokerImpl.Options)
    (requests : List (Except Refusal Dispatch)) :
    List Unistd.Event → List Bytes → Outcome Failure Empty → BrokerImpl lib → Prop
  | constructing {tr : List Unistd.Event} {b : BrokerImpl lib}
      (hrun : BrokerImpl.construct.Executes (BrokerImpl.new options) tr .pending b) :
      Operates casts options requests tr [] .pending b
  | crashed {tr : List Unistd.Event} {f : Unistd.Failure} {b : BrokerImpl lib}
      (hrun : BrokerImpl.construct.Executes (BrokerImpl.new options) tr (.raised f) b) :
      Operates casts options requests tr [] (.raised (.broker f)) b
  | started {startup tr : List Unistd.Event} {text : List Bytes} {o : Outcome Failure Empty}
      {b₀ b : BrokerImpl lib} (hstarted : BrokerImpl.Started options startup b₀)
      (hobeys : Obeys casts b₀ requests tr text o b) :
      Operates casts options requests (startup ++ tr) text o b

theorem Operates.answers {options : BrokerImpl.Options} {done : List Dispatch}
    {requests : List (Except Refusal Dispatch)} {text : List Bytes} {o : Outcome Failure Empty}
    (h : Operates casts options requests tr text o b)
    (hrequests : requests = done.map .ok ++ [.error .endOfFileError])
    (ho : o = .raised (.interface .endOfFileError)) :
    ∃ startup b₀ answered, BrokerImpl.Started options startup b₀ ∧
      Path BrokerImpl.Answers b₀ answered b ∧ answered.map (·.command) = done.map called ∧
        tr = startup ++ answered.flatMap (·.trace) := by
  cases h with
  | constructing => cases ho
  | crashed => cases ho
  | @started startup _ _ _ b₀ _ hstarted hobeys =>
    obtain ⟨answered, hpath, hcommands, htraces⟩ := hobeys.answers hrequests ho
    exact ⟨startup, b₀, answered, hstarted, hpath, hcommands, by rw [htraces]⟩

theorem operates {options : BrokerImpl.Options} {tr : List Event} {o : Outcome Failure Empty}
    (hcourse : Course casts (BrokerImpl.new options) tr o b)
    (hoffer : Offers sent true (inputs tr)) :
    Operates casts options (interpret casts sent) (systems tr) (outputs tr) o b ∧
      (Whole sent → none ∈ inputs tr → o = .raised (.interface .endOfFileError) ∧
        ∃ done, Plays casts sent done) := by
  cases hcourse with
  | constructing hrun =>
    rw [systems_map_system, outputs_map_system, inputs_map_system]
    exact ⟨.constructing hrun, fun _ hnone ↦ absurd hnone List.not_mem_nil⟩
  | crashed hrun =>
    rw [systems_map_system, outputs_map_system, inputs_map_system]
    exact ⟨.crashed hrun, fun _ hnone ↦ absurd hnone List.not_mem_nil⟩
  | serving hrun hrounds hlast =>
    rw [List.append_assoc, inputs_append, inputs_map_system, List.nil_append] at hoffer ⊢
    rw [systems_append, systems_map_system, outputs_append, outputs_map_system]
    obtain ⟨hobeys, hend⟩ := obeys_rounds hrounds hlast hoffer
    exact ⟨.started hrun hobeys, hend⟩

/-- The process obeys the lines of the stream, one after the other, whatever they are; if they
all have their newline, it meets the end only when they have all been answered. -/
structure Interpreted (casts : Casts) (options : BrokerImpl.Options) (sent : Bytes)
    (tr : List Event) (o : Outcome String ℕ) (b : BrokerImpl lib) : Prop where
  operates : ∃ f, Operates casts options (interpret casts sent) (systems tr) (outputs tr) f b ∧
    o = exits f
  finished : Whole sent → none ∈ inputs tr → o = .returned 0 ∧
    ∃ done startup b₀ answered, Plays casts sent done ∧ BrokerImpl.Started options startup b₀ ∧
      Path BrokerImpl.Answers b₀ answered b ∧ answered.map (·.command) = done.map called ∧
        systems tr = startup ++ answered.flatMap (·.trace)

/-- At any moment of any run of the process, whatever bytes the judge writes. -/
theorem process_interprets {options : BrokerImpl.Options} {tr : List Event}
    {o : Outcome String ℕ} (h : (main casts).Executes (BrokerImpl.new options) tr o b)
    (hoffer : Offers sent true (inputs tr)) : Interpreted casts options sent tr o b := by
  obtain ⟨f, hcourse, rfl⟩ := main_spec (BrokerImpl.new options) tr o b h
  obtain ⟨hoperates, hend⟩ := operates hcourse hoffer
  refine ⟨⟨f, hoperates, rfl⟩, fun hwhole hnone ↦ ?_⟩
  obtain ⟨rfl, done, hplays⟩ := hend hwhole hnone
  obtain ⟨startup, b₀, answered, hstarted, hanswered⟩ := hoperates.answers hplays rfl
  exact ⟨rfl, done, startup, b₀, answered, hplays, hstarted, hanswered⟩

def misspelt : Bytes := ascii "BEGIN 0\nSTOP 0\nEND 0\n"

def misspeltSession : Execution Event (BrokerImpl SplitChar.library) String ℕ :=
  (main decimalCasts).run (BrokerImpl.new BrokerImpl.Options.single)
    (quiet 5 ++ typed (ascii "BEGIN 0\n") ++ quiet 1 ++ typed (ascii "STOP 0\nEND 0\n"))
where
  quiet (n : ℕ) : List Answer := List.replicate n {}
  typed (text : Bytes) : List Answer := text.map (fun c ↦ { input := some c })

theorem misspeltSession_outcome : misspeltSession.outcome = .returned 1 ∧
    inputs misspeltSession.trace <+: misspelt.map some := by
  decide +kernel

theorem process_interprets_misspelt : Interpreted decimalCasts BrokerImpl.Options.single misspelt
    misspeltSession.trace (.returned 1) misspeltSession.state := by
  have hx : (main decimalCasts).Executes (BrokerImpl.new BrokerImpl.Options.single)
      misspeltSession.trace misspeltSession.outcome misspeltSession.state :=
    executes_run (main decimalCasts) _ _
  rw [misspeltSession_outcome.1] at hx
  exact process_interprets hx ⟨0, misspeltSession_outcome.2.trans (List.prefix_append _ _)⟩

example : interpret decimalCasts misspelt = [.ok (.quiet (.begin₁ 0)), .error .badLexicalCast,
    .ok (.replying (.end' 0 false)), .error .endOfFileError] := by
  decide +kernel

end FlowctlGame.BrokerMain
