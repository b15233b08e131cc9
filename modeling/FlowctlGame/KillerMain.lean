import FlowctlGame.Interaction.Embedding
import FlowctlGame.KillerChannel
import FlowctlGame.KillerImpl

namespace FlowctlGame.KillerMain

open Interaction Program Unistd KillerStreamInterface

variable {platform : KillerImpl.Platform} {Id : Type}

/-- What the environment answers to the process of the killer: about its two streams, or about
a control group. -/
structure Answer where
  stream : KillerStreamInterface.Answer := {}
  group : KillerImpl.Answer := {}

inductive Event (platform : KillerImpl.Platform) (Id : Type) where
  | stream (e : KillerStreamInterface.Event Id)
  | group (e : KillerImpl.Event platform)

abbrev Serve (platform : KillerImpl.Platform) (Id α : Type) :=
  Program Answer (Event platform Id) (KillerImpl platform) Exception α

section Process

variable (number : Id → Killer.Id) (layouts : Layouts Id)

def recvCommand : Serve platform Id (Command Id) :=
  ((KillerStreamInterface.recvCommand layouts).confined ()).translate Answer.stream .stream id

def send (status : Killer.Status) : Serve platform Id Unit :=
  ((sendStatus layouts status).confined ()).translate Answer.stream .stream id

/-- `KillerInterface::run`, where the target is a `KillerImpl`. -/
def run (command : Command Id) : Serve platform Id Unit := do
  let status ← (KillerInterface.run ⟨command.type, number command.id⟩).translate
    Answer.group .group nofun
  send layouts status

def runOnce : Serve platform Id Unit := do
  let command ← recvCommand layouts
  run number layouts command

/-- The `try` block of `main`, once the options are read and the killer is constructed. -/
def serve : Serve platform Id Empty :=
  Program.loop (fun _ ↦ do
    runOnce number layouts
    pure (.inl ())) ()

def exitStatus : Exception → ℕ
  | .endOfFileError => 0
  | _ => 1

def main : Program Answer (Event platform Id) (KillerImpl platform) Empty ℕ := do
  match ← (serve number layouts).attempt with
  | .ok never => nomatch never
  | .error e => pure (exitStatus e)

end Process

/-- A request that is served: the bytes that were read, what was done about it, and the status
that was written. -/
structure Round (platform : KillerImpl.Platform) where
  bytes : Bytes
  acts : List (KillerImpl.Event platform)
  status : Killer.Status
  padding : Bytes

variable (number : Id → Killer.Id) (layouts : Layouts Id)

def decoded (bytes : Bytes) : KillerInterface.Command :=
  ⟨(layouts.command.value bytes).type, number (layouts.command.value bytes).id⟩

def Round.events (x : Round platform) : List (Event platform Id) :=
  (reads x.bytes).map .stream ++ x.acts.map .group ++
    [.stream (.write (layouts.status.bytes x.status x.padding) (.ok ()))]

structure Served (killer : KillerImpl platform) (x : Round platform) : Prop where
  length : x.bytes.length = layouts.command.size
  serves : KillerInterface.Serves killer
    ⟨decoded number layouts x.bytes, .returned x.status, x.acts⟩ killer

/-- How the request stands that has not been served, or never will be. -/
inductive Stands (killer : KillerImpl platform) :
    List (Event platform Id) → Outcome Exception Empty → Prop
  | receiving (bytes : Bytes) (hlen : bytes.length < layouts.command.size) :
      Stands killer ((reads bytes).map .stream) .pending
  | ended (bytes : Bytes) (hlen : bytes.length < layouts.command.size) :
      Stands killer ((reads bytes ++ [KillerStreamInterface.Event.read none]).map .stream)
        (.raised .endOfFileError)
  | acting (bytes : Bytes) (hlen : bytes.length = layouts.command.size)
      {acts : List (KillerImpl.Event platform)} {o : Outcome Empty Killer.Status}
      (hserves : KillerInterface.Serves killer ⟨decoded number layouts bytes, o, acts⟩ killer) :
      Stands killer ((reads bytes).map .stream ++ acts.map .group) .pending
  | unwritable (bytes : Bytes) (hlen : bytes.length = layouts.command.size)
      {acts : List (KillerImpl.Event platform)} {status : Killer.Status} {data : Bytes} {e : Errno}
      (hserves : KillerInterface.Serves killer
        ⟨decoded number layouts bytes, .returned status, acts⟩ killer) :
      Stands killer ((reads bytes).map .stream ++ acts.map .group ++
        [.stream (.write data (.error e))]) (.raised (.systemError "write" e))

section Specification

variable {number} {layouts} {killer : KillerImpl platform}

def Rounds (number : Id → Killer.Id) (layouts : Layouts Id) (killer : KillerImpl platform)
    (tr : List (Event platform Id)) :
    Outcome Exception Unit → KillerImpl platform → Prop
  | .returned _, killer' =>
    killer' = killer ∧ ∃ x, Served number layouts killer x ∧ tr = x.events layouts
  | .raised e, killer' => killer' = killer ∧ Stands number layouts killer tr (.raised e)
  | .pending, killer' => killer' = killer ∧ Stands number layouts killer tr .pending

theorem recvCommand_spec (killer : KillerImpl platform) :
    (recvCommand layouts).Ensures killer (fun tr o killer' ↦ killer' = killer ∧ ∃ tr' o',
      Obtained layouts.command tr' o' ∧ tr = tr'.map .stream ∧ o = o'.mapError id) :=
  .translate (.confined ((recvBytes_spec layouts.command).mono
    (fun tr o _ h ↦ ⟨rfl, tr, o, h, rfl, rfl⟩)))

theorem send_spec {bytes : Bytes} (hlen : bytes.length = layouts.command.size)
    {acts : List (KillerImpl.Event platform)} {status : Killer.Status}
    (hserves : KillerInterface.Serves killer
      ⟨decoded number layouts bytes, .returned status, acts⟩ killer) :
    (send layouts status).Ensures killer (fun tr ↦ Rounds number layouts killer
      ((reads bytes).map .stream ++ acts.map .group ++ tr)) := by
  refine .translate (.confined ?_)
  simp only [sendStatus, sendBytes, ensures_ask_bind]
  refine ⟨?_, fun m ↦ ?_⟩
  · refine ⟨rfl, ?_⟩
    rw [List.map_nil, List.append_nil]
    exact .acting bytes hlen hserves
  · cases m.write with
    | ok u => exact ensures_pure.mpr ⟨rfl, ⟨bytes, acts, status, m.padding⟩, ⟨hlen, hserves⟩, rfl⟩
    | error e => exact ensures_raise.mpr ⟨rfl, .unwritable bytes hlen hserves⟩

theorem run_spec {bytes : Bytes} (hlen : bytes.length = layouts.command.size) :
    (run number layouts (layouts.command.value bytes)).Ensures killer (fun tr ↦
      Rounds number layouts killer ((reads bytes).map .stream ++ tr)) := by
  have hrun : ((KillerInterface.run (decoded number layouts bytes)).translate
      Answer.group .group nofun : Serve platform Id Killer.Status).Ensures killer
      (fun tr o killer' ↦ killer' = killer ∧ ∃ acts o',
        KillerInterface.Serves killer ⟨decoded number layouts bytes, o', acts⟩ killer ∧
          tr = acts.map .group ∧ o = o'.mapError nofun) := by
    refine .translate (fun acts o killer' h ↦ ?_)
    have hserves : KillerInterface.Serves killer
        ⟨decoded number layouts bytes, o, acts⟩ killer' := h
    obtain ⟨rfl, -⟩ := KillerInterface.serves_spec hserves
    exact ⟨rfl, acts, o, hserves, rfl, rfl⟩
  refine hrun.sequence ?_ ?_ ?_
  · intro tr status killer' h
    obtain ⟨rfl, acts, o, hserves, rfl, ho⟩ := h
    obtain rfl : o = .returned status := by
      cases o <;> cases ho
      rfl
    simp only [← List.append_assoc]
    exact send_spec hlen hserves
  · intro tr e killer' h
    obtain ⟨-, acts, o, -, -, ho⟩ := h
    cases o with
    | raised never => nomatch never
    | returned => cases ho
    | pending => cases ho
  · intro tr killer' h
    obtain ⟨rfl, acts, o, hserves, rfl, ho⟩ := h
    exact ⟨rfl, .acting bytes hlen hserves⟩

theorem runOnce_spec (killer : KillerImpl platform) :
    (runOnce number layouts).Ensures killer (Rounds number layouts killer) := by
  refine (recvCommand_spec killer).sequence ?_ ?_ ?_
  · intro tr command killer' h
    obtain ⟨rfl, tr', o, hobtained, rfl, ho⟩ := h
    cases hobtained with
    | object bytes hlen =>
      cases ho
      exact run_spec hlen
    | ended => cases ho
    | waiting => cases ho
  · intro tr e killer' h
    obtain ⟨rfl, tr', o, hobtained, rfl, ho⟩ := h
    cases hobtained with
    | object => cases ho
    | ended bytes hlen =>
      cases ho
      exact ⟨rfl, .ended bytes hlen⟩
    | waiting => cases ho
  · intro tr killer' h
    obtain ⟨rfl, tr', o, hobtained, rfl, ho⟩ := h
    cases hobtained with
    | object => cases ho
    | ended => cases ho
    | waiting bytes hlen => exact ⟨rfl, .receiving bytes hlen⟩

structure Course (number : Id → Killer.Id) (layouts : Layouts Id) (killer : KillerImpl platform)
    (tr : List (Event platform Id)) (o : Outcome Exception Empty) (rounds : List (Round platform))
    (last : List (Event platform Id)) : Prop where
  served : ∀ x ∈ rounds, Served number layouts killer x
  stands : Stands number layouts killer last o
  trace : tr = rounds.flatMap (Round.events layouts) ++ last

theorem serve_spec (killer : KillerImpl platform) :
    (serve number layouts).Ensures killer (fun tr o killer' ↦ killer' = killer ∧
      ∃ rounds last, Course number layouts killer tr o rounds last) := by
  refine Ensures.loop (fun _ tr killer' ↦ killer' = killer ∧ ∃ rounds : List (Round platform),
    (∀ x ∈ rounds, Served number layouts killer x) ∧ tr = rounds.flatMap (Round.events layouts))
    ⟨rfl, [], List.forall_mem_nil _, rfl⟩ ?_ ?_
  · intro _ tr killer' h
    obtain ⟨rfl, rounds, hserved, rfl⟩ := h
    refine ⟨rfl, rounds, [], hserved, .receiving [] ?_, (List.append_nil _).symm⟩
    exact layouts.command.size_pos
  · intro _ tr killer' h
    obtain ⟨rfl, rounds, hserved, rfl⟩ := h
    refine (runOnce_spec _).sequence ?_ ?_ ?_
    · intro tr _ killer'' hround
      obtain ⟨rfl, x, hx, rfl⟩ := hround
      refine ensures_pure.mpr ⟨rfl, rounds ++ [x], ?_, ?_⟩
      · exact List.forall_mem_append.mpr ⟨hserved, List.forall_mem_singleton.mpr hx⟩
      · rw [List.append_nil, List.flatMap_append, List.flatMap_singleton]
    · exact fun tr e _ hround ↦ ⟨hround.1, rounds, tr, hserved, hround.2, rfl⟩
    · exact fun tr _ hround ↦ ⟨hround.1, rounds, tr, hserved, hround.2, rfl⟩

def exits : Outcome Exception Empty → Outcome Empty ℕ
  | .returned never => nomatch never
  | .raised e => .returned (exitStatus e)
  | .pending => .pending

theorem main_spec (killer : KillerImpl platform) :
    (main number layouts).Ensures killer (fun tr o killer' ↦ killer' = killer ∧
      ∃ f rounds last, Course number layouts killer tr f rounds last ∧ o = exits f) := by
  have hattempt : (serve number layouts).attempt.Ensures killer (fun tr o killer' ↦
      killer' = killer ∧ ∃ f rounds last, Course number layouts killer tr f rounds last ∧
        o = (f.attempted : Outcome Empty (Except Exception Empty))) := by
    refine .attempt ((serve_spec killer).mono (fun tr o killer' h ↦ ?_))
    obtain ⟨hkiller, rounds, last, hcourse⟩ := h
    exact ⟨hkiller, o, rounds, last, hcourse, rfl⟩
  refine hattempt.sequence ?_ ?_ ?_
  · intro tr a killer' h
    obtain ⟨rfl, f, rounds, last, hcourse, ho⟩ := h
    cases f with
    | returned never => nomatch never
    | pending => cases ho
    | raised e =>
      cases ho
      refine ensures_pure.mpr ?_
      rw [List.append_nil]
      exact ⟨rfl, _, rounds, last, hcourse, rfl⟩
  · exact fun _ never _ _ ↦ nomatch never
  · intro tr killer' h
    obtain ⟨rfl, f, rounds, last, hcourse, ho⟩ := h
    cases f <;> cases ho
    exact ⟨rfl, _, rounds, last, hcourse, rfl⟩

end Specification

end FlowctlGame.KillerMain
