import FlowctlGame.Communicate

namespace FlowctlGame

open Interaction Program Unistd Broker

namespace Solution

variable {lib : TokenizerLibrary}

def freeze : Calls (Solution lib) Killer.Status := do
  let sol ← get
  let status ← killerRequest .FREEZE sol.process.id
  assert (status ≠ .PROTECTED) "Invalid configuration."
  pure status

def unfreeze : Calls (Solution lib) Killer.Status := do
  let sol ← get
  let status ← killerRequest .UNFREEZE sol.process.id
  assert (status ≠ .PROTECTED) "Invalid configuration."
  pure status

/-- A status other than `OK` is only logged. -/
def terminate : Calls (Solution lib) Unit := do
  let sol ← get
  let _ ← killerRequest .TERMINATE sol.process.id
  modify ({ · with tokenizer := none, inbuf := [], outbuf := [] })

/-- `SharedTokenizerFactory::instance`. -/
def newTokenizer (argument : TokenizerArgument) : Calls (Solution lib) lib.Instance := do
  let allocated ← Program.ask Answer.allocated (.newTokenizer argument)
  match lib.newTokenizer argument with
  | .error msg => raise (.abort msg)
  | .ok tokenizer => if allocated then pure tokenizer else throw .badAlloc

def begin (tokenizerArgument : TokenizerArgument) (resourceLimits : ResourceLimits) :
    Calls (Solution lib) Unit := do
  let sol ← get
  assert (sol.tokenizer.isNone = true) "Begin was already called!"
  let tokenizer ← newTokenizer tokenizerArgument
  modify ({ · with
    tokenizer := some tokenizer
    tokenizerStatus := .CONTINUE
    result := []
    resourceLimits := resourceLimits })
  if sol.outbuf ≠ [] then
    let result ← callTokenizer sol.outbuf
    modify ({ · with tokenizerStatus := result.status })
    match result.status with
    | .FAIL => pure ()
    | .ACCEPTED =>
      modify (fun sol ↦ { sol with
        result := sol.result ++ sol.outbuf.take result.accepted
        outbuf := sol.outbuf.drop result.accepted })
    | .CONTINUE => modify (fun sol ↦ { sol with result := sol.result ++ sol.outbuf, outbuf := [] })

def send (msg : Bytes) : Calls (Solution lib) Unit := do
  let sol ← get
  assert (sol.tokenizer.isSome = true) "Begin was not called!"
  modify (fun sol ↦ { sol with inbuf := sol.inbuf ++ msg })

/-- The part of `end` that talks to the solution, if the token is still undecided. The
status of a `Result` that is not assigned here is indeterminate. -/
def endCommunicate : Calls (Solution lib) Result.Status := do
  let status ← indeterminate
  let sol ← get
  if sol.tokenizerStatus = .CONTINUE then
    let _ ← unfreeze
    let status ← communicate
    let _ ← freeze
    pure status
  else
    pure status

def verdict : Calls (Solution lib) Result := do
  let sol ← get
  match sol.tokenizerStatus with
  | .FAIL => pure ⟨.TOKENIZER_ERROR, ((sol.tokenizer.bind lib.what).getD [])⟩
  | .CONTINUE => pure ⟨.EOF_ERROR, []⟩
  | .ACCEPTED => pure ⟨.OK, sol.result⟩

/-- The part of `end` after the solution was frozen again. -/
def conclude (discardRemaining : Bool) (status : Result.Status) : Calls (Solution lib) Result := do
  if discardRemaining then
    modify ({ · with inbuf := [] })
  if status ≠ .OK then
    terminate
    pure ⟨status, []⟩
  else
    verdict

def end' (discardRemaining : Bool) : Calls (Solution lib) Result := do
  let sol ← get
  assert (sol.tokenizer.isSome = true) "Begin was not called!"
  scopeExit ({ · with tokenizer := none }) Failure.unwinds do
    let status ← endCommunicate
    conclude discardRemaining status

end Solution

namespace BrokerImpl

inductive Protocol where
  | TEXT
deriving DecidableEq, Repr

structure Options where
  protocol : Protocol
  tokenizer : Bytes
  solutions : List Process
  killer : Process
  judge : Process
  defaultResourceLimits : ResourceLimits
  defaultTokenizerArgument : TokenizerArgument
deriving DecidableEq, Repr

end BrokerImpl

structure BrokerImpl (lib : TokenizerLibrary) where
  defaultResourceLimits : ResourceLimits
  defaultTokenizerArgument : TokenizerArgument
  solutions : List (Solution lib)

namespace BrokerImpl

variable {lib : TokenizerLibrary} {α : Type}

/-- `Solution &sol = solution(i)`, followed by work on `sol` only. -/
def solutionAt (i : ℕ) (m : Calls (Solution lib) α) : Calls (BrokerImpl lib) α :=
  Program.focus (·.solutions[i]?) (fun sol b ↦ { b with solutions := b.solutions.set i sol })
    (.abort "id < solutions_.size()") m

def solution (id : SolutionId) (m : Calls (Solution lib) α) : Calls (BrokerImpl lib) α :=
  solutionAt id.toNat m

def prepare (i : ℕ) : Calls (BrokerImpl lib) Unit := do
  let b ← get
  solutionAt i do
    let _ ← Solution.freeze
    let sol ← get
    setnonblock sol.process.inFd
    setnonblock sol.process.outFd
    modify ({ · with resourceLimits := b.defaultResourceLimits })

def new (options : Options) : BrokerImpl lib where
  defaultResourceLimits := options.defaultResourceLimits
  defaultTokenizerArgument := options.defaultTokenizerArgument
  solutions := options.solutions.map Solution.ofProcess

def construct : Calls (BrokerImpl lib) Unit := do
  let b ← get
  (List.range b.solutions.length).forM prepare

/-- The calls of the `Broker` interface; `begin` comes with one, two or three arguments. -/
inductive Command where
  | begin₁ (id : SolutionId)
  | begin₂ (id : SolutionId) (tokenizerArgument : TokenizerArgument)
  | begin₃ (id : SolutionId) (tokenizerArgument : TokenizerArgument)
      (resourceLimits : ResourceLimits)
  | send (id : SolutionId) (msg : Bytes)
  | end' (id : SolutionId) (discardRemaining : Bool)
  | terminate (id : SolutionId)
deriving DecidableEq, Repr

def begin₃ (id : SolutionId) (tokenizerArgument : TokenizerArgument)
    (resourceLimits : ResourceLimits) : Calls (BrokerImpl lib) Unit :=
  solution id (Solution.begin tokenizerArgument resourceLimits)

def begin₂ (id : SolutionId) (tokenizerArgument : TokenizerArgument) :
    Calls (BrokerImpl lib) Unit := do
  let b ← get
  begin₃ id tokenizerArgument b.defaultResourceLimits

def begin₁ (id : SolutionId) : Calls (BrokerImpl lib) Unit := do
  let b ← get
  begin₂ id b.defaultTokenizerArgument

def run : Command → Calls (BrokerImpl lib) (Option Result)
  | .begin₁ id => do begin₁ id; pure none
  | .begin₂ id tokenizerArgument => do begin₂ id tokenizerArgument; pure none
  | .begin₃ id tokenizerArgument resourceLimits => do
    begin₃ id tokenizerArgument resourceLimits
    pure none
  | .send id msg => do solution id (Solution.send msg); pure none
  | .end' id discardRemaining => do
    let result ← solution id (Solution.end' discardRemaining)
    pure (some result)
  | .terminate id => do solution id Solution.terminate; pure none

end BrokerImpl

end FlowctlGame
