import FlowctlGame.Unistd

namespace FlowctlGame

open Unistd

/-- `BrokerImpl::Process`: the descriptors of the solution's stdin and stdout. -/
structure Process where
  inFd : Fd
  outFd : Fd
  id : Broker.ProcessId
deriving DecidableEq, Repr

structure Solution (lib : TokenizerLibrary) where
  process : Process
  tokenizer : Option lib.Instance := none
  tokenizerStatus : Tokenizer.Status := .CONTINUE
  result : Bytes := []
  inbuf : Bytes := []
  outbuf : Bytes := []
  resourceLimits : Broker.ResourceLimits := {}

namespace Solution

variable {lib : TokenizerLibrary}

def ofProcess (process : Process) : Solution lib := { process := process }

/-- `(*sol.tokenizer)(data)`. -/
def callTokenizer (data : Bytes) : Calls (Solution lib) Tokenizer.Result := do
  let sol ← Interaction.Program.get
  match sol.tokenizer with
  | none => Interaction.Program.raise (.abort "sol.tokenizer")
  | some tokenizer =>
    match lib.call tokenizer data with
    | .error msg => Interaction.Program.raise (.abort msg)
    | .ok (result, tokenizer') =>
      Interaction.Program.modify ({ · with tokenizer := some tokenizer' })
      pure result

end Solution

end FlowctlGame
