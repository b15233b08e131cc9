import FlowctlGame.Interaction.Path
import FlowctlGame.BrokerImpl
import FlowctlGame.Iteration
import FlowctlGame.Session
import FlowctlGame.Interaction.Stream
import FlowctlGame.TokenStream
import FlowctlGame.Terminated
import FlowctlGame.Verdict
import FlowctlGame.Input
import FlowctlGame.Turns
import FlowctlGame.Crash
import FlowctlGame.Interaction.Halting
import FlowctlGame.Deadline
import FlowctlGame.Text.Archive
import FlowctlGame.Configurator
import FlowctlGame.Defaults
import FlowctlGame.Interaction.Contract
import FlowctlGame.Protection
import FlowctlGame.BrokerInterface
import FlowctlGame.BrokerTextInterface
import FlowctlGame.Dialogue
import FlowctlGame.Text.Matching
import FlowctlGame.Separator
import FlowctlGame.Interaction.Settling
import FlowctlGame.Text.Tokens
import FlowctlGame.Lines
import FlowctlGame.Judge
import FlowctlGame.Silence
import FlowctlGame.Interaction.Coupling
import FlowctlGame.Alongside
import FlowctlGame.Limits
import FlowctlGame.Independence
import FlowctlGame.Failing
import FlowctlGame.Lifecycle
import FlowctlGame.Discipline
import FlowctlGame.Framing
import FlowctlGame.Unterminated
import FlowctlGame.Exceptional
import FlowctlGame.Interaction.Record
import FlowctlGame.KillerStreamInterface
import FlowctlGame.KillerChannel
import FlowctlGame.Interaction.History
import FlowctlGame.Registration
import FlowctlGame.Interaction.World
import FlowctlGame.Pipes
import FlowctlGame.Wakeups
import FlowctlGame.Progress
import FlowctlGame.Conversation
import FlowctlGame.Interaction.Embedding
import FlowctlGame.BrokerMain
import FlowctlGame.Decoding
import FlowctlGame.Interpretation
import FlowctlGame.Service
import FlowctlGame.Supervision
import FlowctlGame.KillerMain
import FlowctlGame.Freezing
import FlowctlGame.Game
import FlowctlGame.KillerService
import FlowctlGame.EchoLoop
import FlowctlGame.Interaction.Lifting
import FlowctlGame.Shutdown
