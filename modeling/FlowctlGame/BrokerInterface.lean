import FlowctlGame.BrokerImpl
import FlowctlGame.Text.Cast

namespace FlowctlGame

open Broker Text

def Broker.Result.Status.Named : Result.Status → Prop
  | .unnamed _ => False
  | _ => True

instance : DecidablePred Result.Status.Named := fun status ↦ by
  cases status <;> unfold Result.Status.Named <;> infer_instance

namespace BrokerInterface

/-- How a command over a stream is left other than by `return`. -/
inductive Error where
  | endOfFileError
  | badLexicalCast
  | abort (assertion : String)
deriving DecidableEq, Repr

inductive CommandType where
  | BEGIN
  | SEND
  | END
  | TERMINATE
deriving DecidableEq, Repr

structure Command where
  type : CommandType := .TERMINATE
  id : SolutionId := 18446744073709551615
  args : List Bytes := []
deriving DecidableEq, Repr

/-- The instances of `boost::lexical_cast` that the interface uses; only an enumerator of
`Result::Status` can be printed. -/
structure Casts where
  type : Cast CommandType
  id : Cast SolutionId
  rep : Cast Int64
  bool : Cast Bool
  status : Cast { status : Result.Status // status.Named }

/-- The calls of a client; `end` has an overload of its own for one argument. -/
inductive Call where
  | begin₁ (id : SolutionId)
  | begin₂ (id : SolutionId) (tokenizerArgument : TokenizerArgument)
  | begin₃ (id : SolutionId) (tokenizerArgument : TokenizerArgument)
      (resourceLimits : ResourceLimits)
  | send (id : SolutionId) (msg : Bytes)
  | end₁ (id : SolutionId)
  | end₂ (id : SolutionId) (discardRemaining : Bool)
  | terminate (id : SolutionId)
deriving DecidableEq, Repr

def Call.ends : Call → Bool
  | .end₁ _ | .end₂ _ _ => true
  | _ => false

def Call.command (casts : Casts) : Call → Command
  | .begin₁ id => ⟨.BEGIN, id, []⟩
  | .begin₂ id tokenizerArgument => ⟨.BEGIN, id, [tokenizerArgument]⟩
  | .begin₃ id tokenizerArgument resourceLimits =>
    ⟨.BEGIN, id, [tokenizerArgument, casts.rep.print resourceLimits.userTimeLimit,
      casts.rep.print resourceLimits.realTimeLimit]⟩
  | .send id msg => ⟨.SEND, id, [msg]⟩
  | .end₁ id => ⟨.END, id, []⟩
  | .end₂ id discardRemaining => ⟨.END, id, [casts.bool.print discardRemaining]⟩
  | .terminate id => ⟨.TERMINATE, id, []⟩

/-- What `run` does with the target: a call, or a call whose result is sent back. -/
inductive Dispatch where
  | quiet (c : BrokerImpl.Command)
  | replying (c : BrokerImpl.Command)
deriving DecidableEq, Repr

def run (casts : Casts) (command : Command) : Except Error Dispatch :=
  match command.type with
  | .BEGIN =>
    match command.args with
    | [] => .ok (.quiet (.begin₁ command.id))
    | [tokenizerArgument] => .ok (.quiet (.begin₂ command.id tokenizerArgument))
    | [tokenizerArgument, user, real] =>
      match casts.rep.parse user, casts.rep.parse real with
      | some userTimeLimit, some realTimeLimit =>
        .ok (.quiet (.begin₃ command.id tokenizerArgument ⟨userTimeLimit, realTimeLimit⟩))
      | _, _ => .error .badLexicalCast
    | _ => .error (.abort "false")
  | .SEND =>
    match command.args with
    | [msg] => .ok (.quiet (.send command.id msg))
    | _ => .error (.abort "command.args.size() == 1")
  | .END =>
    match command.args with
    | [] => .ok (.replying (.end' command.id false))
    | [text] =>
      match casts.bool.parse text with
      | some discardRemaining => .ok (.replying (.end' command.id discardRemaining))
      | none => .error .badLexicalCast
    | _ => .error (.abort "false")
  | .TERMINATE =>
    match command.args with
    | [] => .ok (.quiet (.terminate command.id))
    | _ => .error (.abort "command.args.size() == 0")

def Call.target : Call → BrokerImpl.Command
  | .begin₁ id => .begin₁ id
  | .begin₂ id tokenizerArgument => .begin₂ id tokenizerArgument
  | .begin₃ id tokenizerArgument resourceLimits => .begin₃ id tokenizerArgument resourceLimits
  | .send id msg => .send id msg
  | .end₁ id => .end' id false
  | .end₂ id discardRemaining => .end' id discardRemaining
  | .terminate id => .terminate id

/-- The number of arguments selects the right overload, and only `END` is replied to. -/
theorem run_command (casts : Casts) (c : Call) :
    run casts (c.command casts) =
      .ok (bif c.ends then .replying c.target else .quiet c.target) := by
  cases c with
  | begin₁ id => rfl
  | begin₂ id argument => rfl
  | begin₃ id argument limits =>
    simp [run, Call.command, casts.rep.parse_print, Call.ends, Call.target]
  | send id msg => rfl
  | end₁ id => rfl
  | end₂ id discardRemaining =>
    simp [run, Call.command, casts.bool.parse_print, Call.ends, Call.target]
  | terminate id => rfl

def ascii (text : String) : Bytes := text.toList.map (fun c ↦ UInt8.ofNat c.toNat)

def CommandType.name : CommandType → Bytes
  | .BEGIN => ascii "BEGIN"
  | .SEND => ascii "SEND"
  | .END => ascii "END"
  | .TERMINATE => ascii "TERMINATE"

def statusName (status : { status : Result.Status // status.Named }) : Bytes :=
  match status.val with
  | .OK => ascii "OK"
  | .TOKENIZER_ERROR => ascii "TOKENIZER_ERROR"
  | .EOF_ERROR => ascii "EOF_ERROR"
  | .TIME_LIMIT_EXCEEDED => ascii "TIME_LIMIT_EXCEEDED"
  | .REAL_TIME_LIMIT_EXCEEDED => ascii "REAL_TIME_LIMIT_EXCEEDED"
  | .unnamed _ => []

theorem find_statusName (status : { status : Result.Status // status.Named }) :
    [⟨.OK, trivial⟩, ⟨.TOKENIZER_ERROR, trivial⟩, ⟨.EOF_ERROR, trivial⟩,
      ⟨.TIME_LIMIT_EXCEEDED, trivial⟩, ⟨.REAL_TIME_LIMIT_EXCEEDED, trivial⟩].find?
        (fun s ↦ statusName s = statusName status) = some status := by
  obtain ⟨status, h⟩ := status
  cases status with
  | unnamed value => exact absurd h (fun h ↦ h)
  | OK => rfl
  | TOKENIZER_ERROR => rfl
  | EOF_ERROR => rfl
  | TIME_LIMIT_EXCEEDED => rfl
  | REAL_TIME_LIMIT_EXCEEDED => rfl

def decimalCasts : Casts where
  type := .named [.BEGIN, .SEND, .END, .TERMINATE] CommandType.name (fun type ↦ by
    cases type <;> rfl)
  id := uint64
  rep := int64
  bool := bool
  status := .named _ statusName find_statusName

end BrokerInterface

end FlowctlGame
