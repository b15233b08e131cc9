import FlowctlGame.Interaction.Embedding
import FlowctlGame.Dialogue
import FlowctlGame.Session

namespace FlowctlGame.BrokerMain

open Interaction Program Broker BrokerInterface

variable {lib : TokenizerLibrary}

/-- What the environment answers to the process of the broker: the next byte of the judge, or
the answer to a system call. -/
structure Answer where
  input : Option UInt8 := none
  system : Unistd.Answer := {}

inductive Event where
  | input (c : Option UInt8)
  | output (text : Bytes)
  | system (e : Unistd.Event)

/-- How a command is left other than by `return`. -/
inductive Failure where
  | interface (e : BrokerInterface.Error)
  | broker (f : Unistd.Failure)

abbrev Serve (lib : TokenizerLibrary) (α : Type) := Program Answer Event (BrokerImpl lib) Failure α

def construct : Serve lib Unit :=
  BrokerImpl.construct.translate Answer.system .system .broker

/-- `BrokerTextInterface::recvCommand`; the archive is a local variable. -/
def recvCommand (casts : Casts) : Serve lib Command :=
  ((BrokerTextInterface.recvCommand casts).confined {}).translate Answer.input .input .interface

def call (c : BrokerImpl.Command) : Serve lib (Option Result) :=
  (BrokerImpl.run c).translate Answer.system .system .broker

def output (text : Bytes) : Serve lib Unit := ask (fun _ ↦ ()) (fun _ ↦ .output text)

/-- `BrokerTextInterface::send` of a result. If the result cannot be printed, the destructor
of the archive still ends the line. -/
def send (casts : Casts) (result : Result) : Serve lib Unit :=
  match BrokerTextInterface.sendResult casts result with
  | .ok text => output text
  | .error e => do
    output [10]
    raise (.interface e)

def run (casts : Casts) (command : Command) : Serve lib Unit :=
  match BrokerInterface.run casts command with
  | .error e => raise (.interface e)
  | .ok (.quiet c) => do
    let _ ← call c
  | .ok (.replying c) => do
    match ← call c with
    | some result => send casts result
    | none => pure ()

def runOnce (casts : Casts) : Serve lib Unit := do
  let command ← recvCommand casts
  run casts command

/-- The `try` block of `main`, once the options are read. -/
def serve (casts : Casts) : Serve lib Empty := do
  construct
  Program.loop (fun _ ↦ do
    runOnce casts
    pure (.inl ())) ()

/-- The handlers of `main`: the exit status, unless the process is aborted. -/
def Failure.status : Failure → Except String ℕ
  | .interface .endOfFileError | .broker (.exception .endOfFileError) => .ok 0
  | .interface .badLexicalCast | .broker (.exception _) => .ok 1
  | .interface (.abort assertion) | .broker (.abort assertion) => .error assertion

def main (casts : Casts) : Program Answer Event (BrokerImpl lib) String ℕ := do
  match ← (serve casts).attempt with
  | .ok never => nomatch never
  | .error failure =>
    match failure.status with
    | .ok status => pure status
    | .error assertion => raise assertion

section Reception

variable {α : Type} {casts : Casts}

theorem transcribes_unescapeStep (entry : BrokerTextInterface.UnescapeState × Bytes) :
    (BrokerTextInterface.unescapeStep entry).Transcribes := by
  obtain ⟨state, buf⟩ := entry
  apply transcribes_ask.bind
  intro answer
  cases answer with
  | none => exact transcribes_pure _
  | some c =>
    dsimp only
    split
    · exact transcribes_pure _
    · cases state with
      | INIT | ORDINAL =>
        dsimp only
        split
        · exact transcribes_pure _
        · exact transcribes_pure _
      | ESCAPE =>
        dsimp only
        split
        · exact transcribes_pure _
        · split
          · exact transcribes_pure _
          · exact transcribes_raise _

theorem calling_unescapeStep (entry : BrokerTextInterface.UnescapeState × Bytes) :
    (BrokerTextInterface.unescapeStep entry).Calling :=
  calling_ask_bind

theorem transcribes_unescapeEnd
    (left : BrokerTextInterface.UnescapeState × Bytes × Option UInt8) :
    (BrokerTextInterface.unescapeEnd left).Transcribes := by
  obtain ⟨state, buf, c⟩ := left
  unfold BrokerTextInterface.unescapeEnd
  dsimp only
  split
  · exact transcribes_raise _
  · split
    · exact transcribes_raise _
    · apply (transcribes_modify _).bind
      intro _
      split
      · exact transcribes_pure _
      · exact transcribes_raise _

theorem transcribes_unescape : BrokerTextInterface.unescape.Transcribes := by
  apply transcribes_get_bind
  intro ia
  split
  · exact transcribes_raise _
  · refine Transcribes.bind (.loop transcribes_unescapeStep ?_ _) transcribes_unescapeEnd
    exact fun entry ia ↦ (calling_unescapeStep entry ia).mono (fun _ _ _ h b' ↦ h (.inl b'))

theorem calling_unescape : BrokerTextInterface.unescape.Calling := by
  apply calling_get_bind
  intro ia
  split
  · exact calling_raise _
  · exact (Calling.loop calling_unescapeStep _).bind

theorem transcribes_load (parse : Bytes → Option α) :
    (BrokerTextInterface.load parse).Transcribes := by
  apply transcribes_get_bind
  intro ia
  split
  · exact transcribes_raise _
  · split
    · exact transcribes_raise _
    · apply transcribes_unescape.bind
      intro text
      cases parse text with
      | none => exact transcribes_raise _
      | some a => exact transcribes_pure a

theorem calling_load (parse : Bytes → Option α) : (BrokerTextInterface.load parse).Calling := by
  apply calling_get_bind
  intro ia
  split
  · exact calling_raise _
  · split
    · exact calling_raise _
    · exact calling_unescape.bind

theorem transcribes_loadVector : BrokerTextInterface.loadVector.Transcribes := by
  apply transcribes_get_bind
  intro ia
  split
  · exact transcribes_raise _
  · refine Transcribes.bind (.loop ?_ ?_ _)
      (fun v ↦ (transcribes_modify _).bind (fun _ ↦ transcribes_pure v))
    · intro v
      apply transcribes_get_bind
      intro ia
      split
      · exact transcribes_pure _
      · exact (transcribes_load some).bind (fun _ ↦ transcribes_pure _)
    · intro v ia
      refine ensures_get_bind.mpr ?_
      split
      · exact ensures_pure.mpr (fun _ h ↦ by cases h)
      · exact ((calling_load some).bind ia).mono (fun _ _ _ h b' ↦ h (.inl b'))

theorem transcribes_recvCommand (casts : Casts) :
    (BrokerTextInterface.recvCommand casts).Transcribes := by
  apply (transcribes_load _).bind
  intro type
  apply (transcribes_load _).bind
  intro id
  exact transcribes_loadVector.bind (fun _ ↦ transcribes_pure _)

end Reception

def called : Dispatch → BrokerImpl.Command
  | .quiet c | .replying c => c

/-- The bytes are a command, and this is what it asks of the broker. -/
def Received (casts : Casts) (input : List (Option UInt8)) (d : Dispatch) : Prop :=
  ∃ command ia, (BrokerTextInterface.recvCommand casts).Takes {} input (.returned command) ia ∧
    BrokerInterface.run casts command = .ok d

/-- What is written once the broker has answered. -/
inductive Replied (casts : Casts) : Dispatch → Option Result → List Bytes → Prop
  | quiet {c : BrokerImpl.Command} {reply : Option Result} : Replied casts (.quiet c) reply []
  | nothing {c : BrokerImpl.Command} : Replied casts (.replying c) none []
  | result {c : BrokerImpl.Command} {r : Result} {text : Bytes}
      (hsend : BrokerTextInterface.sendResult casts r = .ok text) :
      Replied casts (.replying c) (some r) [text]

structure Round where
  input : List (Option UInt8)
  exchange : BrokerImpl.Exchange
  output : List Bytes

def Round.events (x : Round) : List Event :=
  x.input.map .input ++ x.exchange.trace.map .system ++ x.output.map .output

def Served (casts : Casts) (b : BrokerImpl lib) (x : Round) (b' : BrokerImpl lib) : Prop :=
  ∃ d reply, Received casts x.input d ∧ x.exchange.command = called d ∧
    x.exchange.outcome = .returned reply ∧ BrokerImpl.Serves b x.exchange b' ∧
      Replied casts d reply x.output

/-- How the round stands that is not complete, or never will be. -/
inductive Stands (casts : Casts) (b : BrokerImpl lib) :
    List Event → Outcome Failure Empty → BrokerImpl lib → Prop
  | receiving {used : List (Option UInt8)}
      (hrecv : ((BrokerTextInterface.recvCommand casts).run {} used).outcome = .pending) :
      Stands casts b (used.map .input) .pending b
  | unreadable {used : List (Option UInt8)} {e : BrokerInterface.Error}
      {ia : BrokerTextInterface.InputArchive}
      (hrecv : (BrokerTextInterface.recvCommand casts).Takes {} used (.raised e) ia) :
      Stands casts b (used.map .input) (.raised (.interface e)) b
  | refused {used : List (Option UInt8)} {command : Command} {e : BrokerInterface.Error}
      {ia : BrokerTextInterface.InputArchive}
      (hrecv : (BrokerTextInterface.recvCommand casts).Takes {} used (.returned command) ia)
      (hrun : BrokerInterface.run casts command = .error e) :
      Stands casts b (used.map .input) (.raised (.interface e)) b
  | calling {used : List (Option UInt8)} {d : Dispatch} {tr : List Unistd.Event}
      {b' : BrokerImpl lib} (hrecv : Received casts used d)
      (hcall : BrokerImpl.Serves b ⟨called d, .pending, tr⟩ b') :
      Stands casts b (used.map .input ++ tr.map .system) .pending b'
  | failing {used : List (Option UInt8)} {d : Dispatch} {tr : List Unistd.Event}
      {f : Unistd.Failure} {b' : BrokerImpl lib} (hrecv : Received casts used d)
      (hcall : BrokerImpl.Serves b ⟨called d, .raised f, tr⟩ b') :
      Stands casts b (used.map .input ++ tr.map .system) (.raised (.broker f)) b'
  | sending {used : List (Option UInt8)} {c : BrokerImpl.Command} {r : Result}
      {tr : List Unistd.Event} {b' : BrokerImpl lib} (hrecv : Received casts used (.replying c))
      (hcall : BrokerImpl.Serves b ⟨c, .returned (some r), tr⟩ b') :
      Stands casts b (used.map .input ++ tr.map .system) .pending b'
  | unsendable {used : List (Option UInt8)} {c : BrokerImpl.Command} {r : Result}
      {e : BrokerInterface.Error} {tr : List Unistd.Event} {b' : BrokerImpl lib}
      (hrecv : Received casts used (.replying c))
      (hcall : BrokerImpl.Serves b ⟨c, .returned (some r), tr⟩ b')
      (hsend : BrokerTextInterface.sendResult casts r = .error e) :
      Stands casts b (used.map .input ++ tr.map .system ++ [.output [10]])
        (.raised (.interface e)) b'

section Specification

variable {casts : Casts} {b b' : BrokerImpl lib}

theorem recvCommand_spec (b : BrokerImpl lib) :
    (recvCommand casts).Ensures b (fun tr o b' ↦ b' = b ∧ ∃ used o' ia,
      (BrokerTextInterface.recvCommand casts).Executes {} used o' ia ∧ tr = used.map .input ∧
        o = o'.mapError .interface) :=
  .translate (.confined (fun used o' ia h ↦ ⟨rfl, used, o', ia, h, rfl, rfl⟩))

theorem call_spec (b : BrokerImpl lib) (c : BrokerImpl.Command) :
    (call c).Ensures b (fun tr o b' ↦ ∃ o' tr', BrokerImpl.Serves b ⟨c, o', tr'⟩ b' ∧
      tr = tr'.map .system ∧ o = o'.mapError .broker) :=
  .translate (fun tr o _ h ↦ ⟨o, tr, h, rfl, rfl⟩)

def Rounds (casts : Casts) (b : BrokerImpl lib) (tr : List Event) :
    Outcome Failure Unit → BrokerImpl lib → Prop
  | .returned _, b' => ∃ x, Served casts b x b' ∧ tr = x.events
  | .raised f, b' => Stands casts b tr (.raised f) b'
  | .pending, b' => Stands casts b tr .pending b'

theorem send_spec {used : List (Option UInt8)} {c : BrokerImpl.Command} {r : Result}
    {tr : List Unistd.Event} (hrecv : Received casts used (.replying c))
    (hcall : BrokerImpl.Serves b ⟨c, .returned (some r), tr⟩ b') :
    (send casts r).Ensures b' (fun tr' ↦
      Rounds casts b (used.map .input ++ tr.map .system ++ tr')) := by
  have hsending : Stands casts b (used.map .input ++ tr.map .system ++ []) .pending b' := by
    rw [List.append_nil]
    exact .sending hrecv hcall
  unfold send output
  cases hsend : BrokerTextInterface.sendResult casts r with
  | ok text =>
    refine ensures_ask.mpr ⟨hsending, fun _ ↦ ?_⟩
    exact ⟨⟨used, ⟨c, .returned (some r), tr⟩, [text]⟩,
      ⟨_, _, hrecv, rfl, rfl, hcall, .result hsend⟩, rfl⟩
  | error e =>
    refine ensures_ask_bind.mpr ⟨hsending, fun _ ↦ ensures_raise.mpr ?_⟩
    exact .unsendable hrecv hcall hsend

/-- A round that has got as far as the call, and goes on as `f` when the broker answers. -/
theorem called_spec {used : List (Option UInt8)} {d : Dispatch} (hrecv : Received casts used d)
    {f : Option Result → Serve lib Unit}
    (hf : ∀ reply tr b', BrokerImpl.Serves b ⟨called d, .returned reply, tr⟩ b' →
      (f reply).Ensures b' (fun tr' ↦
        Rounds casts b (used.map .input ++ tr.map .system ++ tr'))) :
    (call (called d) >>= f).Ensures b (fun tr ↦ Rounds casts b (used.map .input ++ tr)) := by
  refine (call_spec b (called d)).sequence ?_ ?_ ?_
  · intro tr reply b' h
    obtain ⟨o, tr', hcall, rfl, ho⟩ := h
    obtain rfl : o = .returned reply := by
      cases o <;> cases ho
      rfl
    simp only [← List.append_assoc]
    exact hf reply tr' b' hcall
  · intro tr f b' h
    obtain ⟨o, tr', hcall, rfl, ho⟩ := h
    cases o <;> cases ho
    exact .failing hrecv hcall
  · intro tr b' h
    obtain ⟨o, tr', hcall, rfl, ho⟩ := h
    cases o <;> cases ho
    exact .calling hrecv hcall

theorem run_spec {used : List (Option UInt8)} {command : Command}
    {ia : BrokerTextInterface.InputArchive}
    (hrecv : (BrokerTextInterface.recvCommand casts).Takes {} used (.returned command) ia) :
    (run casts command).Ensures b (fun tr ↦ Rounds casts b (used.map .input ++ tr)) := by
  unfold run
  split
  · next e hrun =>
    rw [ensures_raise, List.append_nil]
    exact .refused hrecv hrun
  · next c hrun =>
    have hreceived : Received casts used (.quiet c) := ⟨command, ia, hrecv, hrun⟩
    refine called_spec hreceived (fun reply tr b' hcall ↦ ensures_pure.mpr ?_)
    exact ⟨⟨used, ⟨c, .returned reply, tr⟩, []⟩, ⟨_, _, hreceived, rfl, rfl, hcall, .quiet⟩, rfl⟩
  · next c hrun =>
    have hreceived : Received casts used (.replying c) := ⟨command, ia, hrecv, hrun⟩
    refine called_spec hreceived (fun reply tr b' hcall ↦ ?_)
    cases reply with
    | some r => exact send_spec hreceived hcall
    | none =>
      refine ensures_pure.mpr ?_
      exact ⟨⟨used, ⟨c, .returned none, tr⟩, []⟩, ⟨_, _, hreceived, rfl, rfl, hcall, .nothing⟩, rfl⟩

theorem runOnce_spec (b : BrokerImpl lib) : (runOnce casts).Ensures b (Rounds casts b) := by
  refine (recvCommand_spec b).sequence ?_ ?_ ?_
  · intro tr command b' h
    obtain ⟨rfl, used, o, ia, hrecv, rfl, ho⟩ := h
    obtain rfl : o = .returned command := by
      cases o <;> cases ho
      rfl
    exact run_spec ((transcribes_recvCommand casts).executes hrecv (fun h ↦ by cases h))
  · intro tr f b' h
    obtain ⟨rfl, used, o, ia, hrecv, rfl, ho⟩ := h
    cases o <;> cases ho
    exact .unreadable ((transcribes_recvCommand casts).executes hrecv (fun h ↦ by cases h))
  · intro tr b' h
    obtain ⟨rfl, used, o, ia, hrecv, rfl, ho⟩ := h
    cases o <;> cases ho
    exact .receiving ((transcribes_recvCommand casts).pending hrecv)

/-- Any execution of the process up to any moment: the constructor, complete rounds, and the
round that is not. -/
inductive Course (casts : Casts) (b : BrokerImpl lib) :
    List Event → Outcome Failure Empty → BrokerImpl lib → Prop
  | constructing {tr : List Unistd.Event} {b' : BrokerImpl lib}
      (hrun : BrokerImpl.construct.Executes b tr .pending b') :
      Course casts b (tr.map .system) .pending b'
  | crashed {tr : List Unistd.Event} {f : Unistd.Failure} {b' : BrokerImpl lib}
      (hrun : BrokerImpl.construct.Executes b tr (.raised f) b') :
      Course casts b (tr.map .system) (.raised (.broker f)) b'
  | serving {startup : List Unistd.Event} {rounds : List Round} {last : List Event}
      {o : Outcome Failure Empty} {b₀ b₁ b' : BrokerImpl lib}
      (hrun : BrokerImpl.construct.Executes b startup (.returned ()) b₀)
      (hrounds : Path (Served casts) b₀ rounds b₁) (hlast : Stands casts b₁ last o b') :
      Course casts b (startup.map .system ++ rounds.flatMap Round.events ++ last) o b'

theorem waiting (b : BrokerImpl lib) : Stands casts b [] .pending b := by
  have hnothing : Stands casts b (([] : List (Option UInt8)).map .input) .pending b :=
    .receiving rfl
  exact hnothing

theorem rounds_spec (b : BrokerImpl lib) :
    (Program.loop (fun _ ↦ do runOnce casts; pure (.inl ())) () : Serve lib Empty).Ensures b
      (fun tr o b' ↦ ∃ rounds b₁ last, Path (Served casts) b rounds b₁ ∧
        Stands casts b₁ last o b' ∧ tr = rounds.flatMap Round.events ++ last) := by
  refine Ensures.loop (fun _ tr b' ↦ ∃ rounds, Path (Served casts) b rounds b' ∧
    tr = rounds.flatMap Round.events) ⟨[], .nil b, rfl⟩ ?_ ?_
  · intro _ tr b' h
    obtain ⟨rounds, hrounds, rfl⟩ := h
    exact ⟨rounds, b', [], hrounds, waiting b', (List.append_nil _).symm⟩
  · intro _ tr b' h
    obtain ⟨rounds, hrounds, rfl⟩ := h
    refine (runOnce_spec b').sequence ?_ ?_ ?_
    · intro tr _ b'' hround
      obtain ⟨x, hx, rfl⟩ := hround
      refine ensures_pure.mpr ⟨rounds ++ [x], hrounds.snoc hx, ?_⟩
      rw [List.append_nil, List.flatMap_append, List.flatMap_singleton]
    · exact fun tr f b'' hround ↦ ⟨rounds, b', tr, hrounds, hround, rfl⟩
    · exact fun tr b'' hround ↦ ⟨rounds, b', tr, hrounds, hround, rfl⟩

theorem serve_spec (b : BrokerImpl lib) : (serve casts).Ensures b (Course casts b) := by
  have hconstruct : (construct : Serve lib Unit).Ensures b (fun tr o b' ↦ ∃ o' tr',
      BrokerImpl.construct.Executes b tr' o' b' ∧ tr = tr'.map .system ∧
        o = o'.mapError .broker) := .translate (fun tr o _ h ↦ ⟨o, tr, h, rfl, rfl⟩)
  refine hconstruct.sequence ?_ ?_ ?_
  · intro tr _ b₀ h
    obtain ⟨o, startup, hrun, rfl, ho⟩ := h
    obtain rfl : o = .returned () := by
      cases o <;> cases ho
      rfl
    refine (rounds_spec b₀).mono (fun tr o b' h ↦ ?_)
    obtain ⟨rounds, b₁, last, hrounds, hlast, rfl⟩ := h
    rw [← List.append_assoc]
    exact .serving hrun hrounds hlast
  · intro tr f b' h
    obtain ⟨o, tr', hrun, rfl, ho⟩ := h
    cases o <;> cases ho
    exact .crashed hrun
  · intro tr b' h
    obtain ⟨o, tr', hrun, rfl, ho⟩ := h
    cases o <;> cases ho
    exact .constructing hrun

def exits : Outcome Failure Empty → Outcome String ℕ
  | .returned never => nomatch never
  | .raised f =>
    match f.status with
    | .ok status => .returned status
    | .error assertion => .raised assertion
  | .pending => .pending

theorem exits_pending {o : Outcome Failure Empty} : exits o = .pending ↔ o = .pending := by
  cases o with
  | returned never => nomatch never
  | pending => simp [exits]
  | raised f =>
    unfold exits
    cases hf : f.status with
    | ok status => simp [hf]
    | error assertion => simp [hf]

theorem main_spec (b : BrokerImpl lib) : (main casts).Ensures b (fun tr o b' ↦
    ∃ o', Course casts b tr o' b' ∧ o = exits o') := by
  have hattempt : (serve casts).attempt.Ensures b (fun tr o b' ↦
      ∃ o', Course casts b tr o' b' ∧ o = (o'.attempted : Outcome String (Except Failure Empty))) :=
    .attempt ((serve_spec b).mono (fun _ o _ h ↦ ⟨o, h, rfl⟩))
  refine hattempt.sequence ?_ ?_ ?_
  · intro tr a b' h
    obtain ⟨o, hcourse, ho⟩ := h
    cases o with
    | returned never => nomatch never
    | pending => cases ho
    | raised f =>
      cases ho
      dsimp only
      cases hf : f.status with
      | ok status =>
        rw [ensures_pure, List.append_nil]
        exact ⟨_, hcourse, by simp [exits, hf]⟩
      | error assertion =>
        rw [ensures_raise, List.append_nil]
        exact ⟨_, hcourse, by simp [exits, hf]⟩
  · intro tr e b' h
    obtain ⟨o, -, ho⟩ := h
    cases o <;> cases ho
  · intro tr b' h
    obtain ⟨o, hcourse, ho⟩ := h
    cases o <;> cases ho
    exact ⟨_, hcourse, rfl⟩

end Specification

end FlowctlGame.BrokerMain
