import FlowctlGame.KillerImpl
import FlowctlGame.Session
import FlowctlGame.Text.Archive

namespace FlowctlGame

open Broker Text

def Process.serialize : List (Member Process) :=
  [.of "in" (.leaf int) (·.inFd) (fun inFd process ↦ { process with inFd := inFd }),
   .of "out" (.leaf int) (·.outFd) (fun outFd process ↦ { process with outFd := outFd }),
   .of "id" (.leaf int) (·.id) (fun id process ↦ { process with id := id })]

def Process.translator : Translator Process :=
  .record Process.serialize ⟨0, 0, 0⟩ (by decide) (fun _ ↦ rfl)

def Broker.ResourceLimits.serialize : List (Member ResourceLimits) :=
  [.of "userTimeLimitMillis" (.leaf int64) (·.userTimeLimit)
     (fun limit limits ↦ { limits with userTimeLimit := limit }),
   .of "realTimeLimitMillis" (.leaf int64) (·.realTimeLimit)
     (fun limit limits ↦ { limits with realTimeLimit := limit })]

def Broker.ResourceLimits.translator : Translator ResourceLimits :=
  .record ResourceLimits.serialize {} (by decide) (fun _ ↦ rfl)

namespace BrokerImpl

def Protocol.translator : Translator Protocol :=
  .leaf (.named [.TEXT] (fun _ ↦ [84, 69, 88, 84]) (fun protocol ↦ by cases protocol; rfl))

def Options.serialize : List (Member Options) :=
  [.of "protocol" Protocol.translator (·.protocol)
     (fun protocol options ↦ { options with protocol := protocol }),
   .of "tokenizer" (.leaf text) (·.tokenizer)
     (fun tokenizer options ↦ { options with tokenizer := tokenizer }),
   .of "solutions" (.list Process.translator) (·.solutions)
     (fun solutions options ↦ { options with solutions := solutions }),
   .of "killer" Process.translator (·.killer)
     (fun killer options ↦ { options with killer := killer }),
   .of "judge" Process.translator (·.judge)
     (fun judge options ↦ { options with judge := judge }),
   .of "defaultResourceLimits" ResourceLimits.translator (·.defaultResourceLimits)
     (fun limits options ↦ { options with defaultResourceLimits := limits })]

/-- A default-constructed record; the members without an initializer may hold anything. -/
structure Options.Constructed (options : Options) : Prop where
  tokenizer : options.tokenizer = []
  solutions : options.solutions = []
  defaultResourceLimits : options.defaultResourceLimits = {}
  defaultTokenizerArgument : options.defaultTokenizerArgument = []

end BrokerImpl

def KillerImpl.Options.serialize : List (Member KillerImpl.Options) :=
  [.of "unprotected"
     ((Translator.list (.leaf int)).through (fun ids : Finset Killer.Id ↦ ids.sort (· ≤ ·))
       List.toFinset (fun ids ↦ ids.sort_toFinset _))
     (·.unprotected) (fun ids options ↦ { options with unprotected := ids }),
   .of "pattern" (.leaf text) (·.pattern)
     (fun pattern options ↦ { options with pattern := pattern })]

inductive StreamEnd where
  | file (path : Bytes)
  | readEnd (pipe : ℕ)
  | writeEnd (pipe : ℕ)
deriving DecidableEq, Repr

structure Configurator where
  broker : ProcessId
  killer : ProcessId
  judge : ProcessId
  solutions : List ProcessId
  protocol : BrokerImpl.Protocol := .TEXT
  killerLog : Bytes := []
  judgeLog : Bytes := []
  brokerLog : Bytes := []
  tokenizer : Bytes := []
  defaultResourceLimits : ResourceLimits := {}
  defaultTokenizerArgument : TokenizerArgument := []

namespace Configurator

def serialize : List (Member Configurator) :=
  [.of "protocol" BrokerImpl.Protocol.translator (·.protocol)
     (fun protocol c ↦ { c with protocol := protocol }),
   .of "killerLog" (.leaf text) (·.killerLog) (fun path c ↦ { c with killerLog := path }),
   .of "judgeLog" (.leaf text) (·.judgeLog) (fun path c ↦ { c with judgeLog := path }),
   .of "brokerLog" (.leaf text) (·.brokerLog) (fun path c ↦ { c with brokerLog := path }),
   .of "tokenizer" (.leaf text) (·.tokenizer) (fun path c ↦ { c with tokenizer := path }),
   .of "defaultResourceLimits" ResourceLimits.translator (·.defaultResourceLimits)
     (fun limits c ↦ { c with defaultResourceLimits := limits }),
   .of "defaultTokenizerArgument" (.leaf text) (·.defaultTokenizerArgument)
     (fun argument c ↦ { c with defaultTokenizerArgument := argument })]

/-- The processes are not serialized, every setting is. -/
theorem restored_serialize (c constructed : Configurator) :
    restored (fields serialize) c constructed = { c with
      broker := constructed.broker
      killer := constructed.killer
      judge := constructed.judge
      solutions := constructed.solutions } := by
  simp [restored, fields, serialize, Member.of]

/-- What `configure` has done so far: the next descriptor of the broker, the pipes created,
the streams set and the ids inserted into the killer's options. -/
structure Setup where
  brokerFD : ℕ := 3
  pipes : ℕ := 0
  streams : List (ProcessId × ℕ × StreamEnd) := []
  unprotected : Finset Killer.Id := ∅

def Setup.setStream (setup : Setup) (proc : ProcessId) (fd : ℕ) (stream : StreamEnd) : Setup :=
  { setup with streams := setup.streams ++ [(proc, fd, stream)] }

def Setup.unprotect (setup : Setup) (id : Killer.Id) : Setup :=
  { setup with unprotected := insert id setup.unprotected }

/-- `connect(proc, cfg)`, answering `cfg`. -/
def connect (c : Configurator) (setup : Setup) (proc : ProcessId) : Process × Setup :=
  (⟨setup.brokerFD, setup.brokerFD + 1, proc⟩,
   { setup with
     brokerFD := setup.brokerFD + 2
     pipes := setup.pipes + 2
     streams := setup.streams ++
       [(proc, 0, .readEnd setup.pipes), (proc, 1, .writeEnd (setup.pipes + 1)),
        (c.broker, setup.brokerFD, .writeEnd setup.pipes),
        (c.broker, setup.brokerFD + 1, .readEnd (setup.pipes + 1))] })

def connectSolutions (c : Configurator) : Setup → List ProcessId → List Process × Setup
  | setup, [] => ([], setup)
  | setup, proc :: procs =>
    let (process, setup) := c.connect setup proc
    let (processes, setup) := c.connectSolutions (setup.unprotect proc) procs
    (process :: processes, setup)

/-- What `configure` leaves behind: the two records dumped into the configuration files, the
streams and the judge's argument. -/
structure Configured where
  brokerOptions : BrokerImpl.Options
  killerOptions : KillerImpl.Options
  streams : List (ProcessId × ℕ × StreamEnd)
  judgeArgument : Bytes

/-- `Configurator::configure`, in the one call that takes effect. -/
def configure (c : Configurator) : Configured :=
  let setup := ({} : Setup).setStream c.broker 2 (.file c.brokerLog)
  let (killer, setup) := c.connect setup c.killer
  let setup := setup.setStream c.killer 2 (.file c.killerLog)
  let (judge, setup) := c.connect setup c.judge
  let setup := setup.setStream c.judge 2 (.file c.judgeLog)
  let (solutions, setup) := c.connectSolutions setup c.solutions
  { brokerOptions :=
      { protocol := c.protocol
        tokenizer := c.tokenizer
        solutions := solutions
        killer := killer
        judge := judge
        defaultResourceLimits := c.defaultResourceLimits
        defaultTokenizerArgument := c.defaultTokenizerArgument }
    killerOptions := { unprotected := setup.unprotected }
    streams := setup.streams
    judgeArgument := nat.print c.solutions.length }

variable (c : Configurator)

theorem connectSolutions_ids (setup : Setup) (procs : List ProcessId) :
    (c.connectSolutions setup procs).1.map (·.id) = procs := by
  induction procs generalizing setup with
  | nil => rfl
  | cons proc procs ih =>
    simp only [connectSolutions, List.map_cons, ih]
    rfl

theorem connectSolutions_unprotected (setup : Setup) (procs : List ProcessId) :
    (c.connectSolutions setup procs).2.unprotected = setup.unprotected ∪ procs.toFinset := by
  induction procs generalizing setup with
  | nil => simp [connectSolutions]
  | cons proc procs ih =>
    simp only [connectSolutions, ih, connect, Setup.unprotect, List.toFinset_cons,
      Finset.insert_union, Finset.union_insert]

theorem connectSolutions_fds (setup : Setup) (procs : List ProcessId) :
    (c.connectSolutions setup procs).1.flatMap (fun process ↦ [process.inFd, process.outFd]) =
      (List.range' setup.brokerFD (2 * procs.length)).map (fun fd : ℕ ↦ (fd : ℤ)) := by
  induction procs generalizing setup with
  | nil => rfl
  | cons proc procs ih =>
    have htwo : 2 * (procs.length + 1) = 2 * procs.length + 1 + 1 := by omega
    simp only [connectSolutions, List.flatMap_cons, ih, List.length_cons, htwo, List.range'_succ,
      List.map_cons]
    rfl

theorem configure_ids : c.configure.brokerOptions.solutions.map (·.id) = c.solutions :=
  c.connectSolutions_ids _ _

theorem configure_unprotected :
    c.configure.killerOptions.unprotected = c.solutions.toFinset := by
  refine (c.connectSolutions_unprotected _ _).trans ?_
  exact Finset.empty_union _

theorem configure_wellFormed : c.configure.brokerOptions.WellFormed := by
  refine (congrArg List.Nodup (c.connectSolutions_fds _ _)).mpr ?_
  exact List.Nodup.map (fun _ _ h ↦ Int.ofNat_inj.mp h) (List.nodup_range' ..)

/-- Both pipes of a process: its standard streams are at one end, the broker's descriptors at
the other. -/
def Wired (streams : List (ProcessId × ℕ × StreamEnd)) (process : Process) : Prop :=
  ∃ inFd outFd input output : ℕ, process.inFd = inFd ∧ process.outFd = outFd ∧
    (process.id, 0, .readEnd input) ∈ streams ∧ (c.broker, inFd, .writeEnd input) ∈ streams ∧
    (process.id, 1, .writeEnd output) ∈ streams ∧ (c.broker, outFd, .readEnd output) ∈ streams

theorem Wired.mono {c : Configurator} {streams streams' : List (ProcessId × ℕ × StreamEnd)}
    {process : Process} (h : c.Wired streams process) (hs : streams ⊆ streams') :
    c.Wired streams' process := by
  obtain ⟨inFd, outFd, input, output, hin, hout, h₁, h₂, h₃, h₄⟩ := h
  exact ⟨inFd, outFd, input, output, hin, hout, hs h₁, hs h₂, hs h₃, hs h₄⟩

theorem connect_wired (setup : Setup) (proc : ProcessId) :
    c.Wired (c.connect setup proc).2.streams (c.connect setup proc).1 :=
  ⟨setup.brokerFD, setup.brokerFD + 1, setup.pipes, setup.pipes + 1, by simp [connect]⟩

theorem connect_streams (setup : Setup) (proc : ProcessId) :
    setup.streams ⊆ (c.connect setup proc).2.streams :=
  List.subset_append_left _ _

theorem connectSolutions_streams (setup : Setup) (procs : List ProcessId) :
    setup.streams ⊆ (c.connectSolutions setup procs).2.streams := by
  induction procs generalizing setup with
  | nil => exact List.Subset.refl _
  | cons proc procs ih =>
    simp only [connectSolutions]
    exact List.Subset.trans (c.connect_streams setup proc)
      (ih ((c.connect setup proc).2.unprotect proc))

theorem connectSolutions_wired (setup : Setup) (procs : List ProcessId) :
    ∀ process ∈ (c.connectSolutions setup procs).1,
      c.Wired (c.connectSolutions setup procs).2.streams process := by
  induction procs generalizing setup with
  | nil => exact fun _ h ↦ absurd h List.not_mem_nil
  | cons proc procs ih =>
    simp only [connectSolutions]
    refine List.forall_mem_cons.mpr ⟨?_, ih _⟩
    exact (c.connect_wired setup proc).mono
      (c.connectSolutions_streams ((c.connect setup proc).2.unprotect proc) procs)

theorem configure_wired : ∀ process ∈ c.configure.brokerOptions.solutions,
    c.Wired c.configure.streams process :=
  c.connectSolutions_wired _ _

end Configurator

end FlowctlGame
