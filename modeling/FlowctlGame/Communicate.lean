import FlowctlGame.Solution

namespace FlowctlGame.Solution

open Interaction Program Unistd Broker

variable {lib : TokenizerLibrary}

/-- The polling loop; it carries the events reported so far and the last clock reading. -/
def poll (untilPoint : Int) :
    List EpollEvent × Int → Calls (Solution lib) (List EpollEvent × Int) :=
  Program.loop (fun (events, now) ↦ do
    if events = [] ∧ now < untilPoint then
      let events ← epollWait
      let now ← clockNow
      pure (.inl (events, now))
    else
      pure (.inr (events, now)))

def writeLoop : Calls (Solution lib) Unit :=
  Program.loop (fun _ ↦ do
    let sol ← get
    if sol.inbuf = [] then
      pure (.inr ())
    else
      match ← write sol.process.inFd (sol.inbuf.take BUFSIZ) with
      | .error .EAGAIN => pure (.inr ())
      | .error e => throw (.systemError "write" e)
      | .ok size =>
        modify (fun sol ↦ { sol with inbuf := sol.inbuf.drop size })
        pure (.inl ())) ()

def handleWriteEnd (ev : EpollEvent) : Calls (Solution lib) Unit := do
  let sol ← get
  if ev.EPOLLERR || ev.EPOLLHUP then
    epollCtlDel sol.process.inFd
  else
    assert ev.EPOLLOUT "Unexpected event."
    if sol.tokenizerStatus ≠ .CONTINUE then
      pure ()
    else
      writeLoop
      let sol ← get
      if sol.inbuf = [] then
        epollCtlDel sol.process.inFd

def handleChunk (buf : Bytes) : Calls (Solution lib) Unit := do
  let result ← callTokenizer buf
  modify (fun sol ↦ { sol with tokenizerStatus := result.status })
  match result.status with
  | .FAIL =>
    let sol ← get
    epollCtlDel sol.process.outFd
  | .CONTINUE => modify (fun sol ↦ { sol with result := sol.result ++ buf })
  | .ACCEPTED =>
    modify (fun sol ↦ { sol with
      result := sol.result ++ buf.take result.accepted
      outbuf := sol.outbuf ++ buf.drop result.accepted })

def readLoop : Calls (Solution lib) Unit :=
  Program.loop (fun _ ↦ do
    let sol ← get
    if sol.tokenizerStatus ≠ .CONTINUE then
      pure (.inr ())
    else
      match ← read sol.process.outFd with
      | .ok [] => pure (.inr ())
      | .error .EAGAIN => pure (.inr ())
      | .error e => throw (.systemError "read" e)
      | .ok buf =>
        handleChunk buf
        pure (.inl ())) ()

/-- Event at the read end of the pipe; `some OK` leaves `communicate`. -/
def handleReadEnd (ev : EpollEvent) : Calls (Solution lib) (Option Result.Status) := do
  if ¬ ev.EPOLLIN then
    pure (some .OK)
  else
    assert ev.EPOLLIN "Unexpected event."
    readLoop
    pure none

/-- The assertion repeats the test before it. -/
theorem handleReadEnd_eq (ev : EpollEvent) :
    (handleReadEnd ev : Calls (Solution lib) (Option Result.Status)) =
      if ¬ ev.EPOLLIN then pure (some .OK) else readLoop >>= fun _ ↦ pure none := by
  unfold handleReadEnd assert
  split
  · rfl
  · rename_i hin
    rw [if_pos (not_not.mp hin)]
    exact pure_bind _ _

def handleEvents : List EpollEvent → Calls (Solution lib) (Option Result.Status)
  | [] => pure none
  | ev :: events => do
    let sol ← get
    if ev.fd = sol.process.inFd then
      handleWriteEnd ev
      handleEvents events
    else if ev.fd = sol.process.outFd then
      match ← handleReadEnd ev with
      | some status => pure (some status)
      | none => handleEvents events
    else
      handleEvents events

def round (untilPoint : Int) (_ : Unit) :
    Calls (Solution lib) (Unit ⊕ Result.Status) := do
  let sol ← get
  if sol.tokenizerStatus ≠ .CONTINUE then
    pure (.inr .OK)
  else
    let now ← clockNow
    let (events, now) ← poll untilPoint ([], now)
    if events = [] ∧ untilPoint ≤ now then
      pure (.inr .REAL_TIME_LIMIT_EXCEEDED)
    else
      match ← handleEvents events with
      | some status => pure (.inr status)
      | none => pure (.inl ())

def communicate : Calls (Solution lib) Result.Status := do
  let sol ← get
  assert (sol.tokenizer.isSome = true) "Begin was not called!"
  let start ← clockNow
  let untilPoint := deadline start sol.resourceLimits.realTimeLimit
  epollCreate1
  epollCtlAdd sol.process.inFd { fd := sol.process.inFd, EPOLLOUT := true }
  epollCtlAdd sol.process.outFd { fd := sol.process.outFd, EPOLLIN := true }
  Program.loop (round untilPoint) ()

end FlowctlGame.Solution
