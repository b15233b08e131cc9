import FlowctlGame.Tokenizer

namespace FlowctlGame

namespace Killer

/-- `Process::Id`, the identifier of a process of the group. -/
abbrev Id := ℤ

inductive Status where
  | OK
  | PROTECTED
  | ERROR
deriving DecidableEq, Repr

inductive Act where
  | FREEZE
  | UNFREEZE
  | TERMINATE
deriving DecidableEq, Repr

end Killer

namespace Broker

abbrev SolutionId := UInt64
abbrev ProcessId := Killer.Id
abbrev TokenizerArgument := Bytes

structure ResourceLimits where
  userTimeLimit : Int64 := 3600000
  realTimeLimit : Int64 := 3600000
deriving DecidableEq, Repr

namespace Result

/-- `unnamed` is a value of the underlying integer type that names no enumerator: a
status object that was never assigned may hold it. -/
inductive Status where
  | OK
  | TOKENIZER_ERROR
  | EOF_ERROR
  | TIME_LIMIT_EXCEEDED
  | REAL_TIME_LIMIT_EXCEEDED
  | unnamed (value : Int)
deriving DecidableEq, Repr

end Result

/-- `data` is the returned data if `status` is `OK`, otherwise an error message. -/
structure Result where
  status : Result.Status
  data : Bytes
deriving DecidableEq, Repr

end Broker

end FlowctlGame
