import FlowctlGame.Interaction.World
import FlowctlGame.Registration

namespace FlowctlGame

open Interaction Program Unistd Broker

inductive Act where
  | take (c : UInt8)
  | give (c : UInt8)
  | think
deriving DecidableEq, Repr

namespace Act

def taken : Act → Bytes
  | .take c => [c]
  | _ => []

def given : Act → Bytes
  | .give c => [c]
  | _ => []

def gives : Act → Bool
  | .give _ => true
  | _ => false

end Act

/-- Any program that may run as a solution. It reads from its stdin as long as it `listens` and
writes to its stdout as long as it `speaks`; what it has closed stays closed. With either of
them open it is computing, writing or reading. -/
structure Worker where
  State : Type
  does : State → Act → State → Prop
  listens : State → Prop
  speaks : State → Prop
  take_listens : ∀ s c s', does s (.take c) s' → listens s
  give_speaks : ∀ s c s', does s (.give c) s' → speaks s
  listens_before : ∀ s a s', does s a s' → listens s' → listens s
  speaks_before : ∀ s a s', does s a s' → speaks s' → speaks s
  willing : ∀ s, listens s ∨ speaks s →
    (∃ s', does s .think s') ∨ (∃ c s', does s (.give c) s') ∨ ∀ c, ∃ s', does s (.take c) s'

def Worker.echo : Worker where
  State := Option UInt8
  does s act s' :=
    match s, act with
    | none, .take c => s' = some c
    | some c, .give d => d = c ∧ s' = none
    | _, _ => False
  listens _ := True
  speaks _ := True
  take_listens _ _ _ _ := trivial
  give_speaks _ _ _ _ := trivial
  listens_before _ _ _ _ _ := trivial
  speaks_before _ _ _ _ _ := trivial
  willing s _ := by
    cases s with
    | none => exact .inr (.inr (fun c ↦ ⟨some c, rfl⟩))
    | some c => exact .inr (.inl ⟨c, none, rfl, rfl⟩)

structure Capacities where
  stdin : ℕ
  stdout : ℕ
  stdin_pos : 0 < stdin
  stdout_pos : 0 < stdout

/-- A solution beyond the broker's system calls: its program, what is in its pipes, and the
descriptors that the epoll instance of the broker watches. -/
structure Side (W : Worker) where
  state : W.State
  stdin : Bytes := []
  stdout : Bytes := []
  registered : Finset Fd := ∅

namespace Side

variable {W : Worker}

/-- The events that a wait reports are those of the registered descriptors that are ready. -/
structure Reports (capacities : Capacities) (p : Process) (side : Side W)
    (events : List EpollEvent) : Prop where
  nodup : (events.map (·.fd)).Nodup
  registered : ∀ ev ∈ events, ev.fd ∈ side.registered
  stdin : ∀ ev ∈ events, ev.fd = p.inFd →
    (ev.EPOLLOUT = true ↔ side.stdin.length < capacities.stdin) ∧
      ((ev.EPOLLERR || ev.EPOLLHUP) = true ↔ ¬ W.listens side.state) ∧
        ((ev.EPOLLERR || ev.EPOLLHUP) = false → ev.EPOLLOUT = true)
  stdout : ∀ ev ∈ events, ev.fd = p.outFd →
    (ev.EPOLLIN = true ↔ side.stdout ≠ []) ∧ (ev.EPOLLIN = false → ¬ W.speaks side.state)
  stdin_reported : p.inFd ∈ side.registered →
    side.stdin.length < capacities.stdin ∨ ¬ W.listens side.state → ∃ ev ∈ events, ev.fd = p.inFd
  stdout_reported : p.outFd ∈ side.registered →
    side.stdout ≠ [] ∨ ¬ W.speaks side.state → ∃ ev ∈ events, ev.fd = p.outFd

/-- The calls that have nothing to do with the pipes of `p` or with epoll. -/
def Elsewhere (p : Process) : Event → Prop
  | .read fd _ => fd ≠ p.outFd
  | .write fd _ _ => fd ≠ p.inFd
  | .epollCreate1 _ | .epollCtlAdd _ _ _ | .epollCtlDel _ _ | .epollWait _ => False
  | _ => True

inductive Step (capacities : Capacities) (p : Process) : Side W → Event ⊕ Act → Side W → Prop
  | take {side : Side W} {c : UInt8} {rest : Bytes} {s : W.State}
      (hdoes : W.does side.state (.take c) s) (hstdin : side.stdin = c :: rest) :
      Step capacities p side (.inr (.take c)) { side with state := s, stdin := rest }
  | give {side : Side W} {c : UInt8} {s : W.State} (hdoes : W.does side.state (.give c) s)
      (hroom : side.stdout.length < capacities.stdout) :
      Step capacities p side (.inr (.give c))
        { side with state := s, stdout := side.stdout ++ [c] }
  | think {side : Side W} {s : W.State} (hdoes : W.does side.state .think s) :
      Step capacities p side (.inr .think) { side with state := s }
  | wrote {side : Side W} {data : Bytes} {n : ℕ} (hlisten : W.listens side.state) (hn : 0 < n)
      (hle : n ≤ data.length) (hroom : side.stdin.length + n ≤ capacities.stdin) :
      Step capacities p side (.inl (.write p.inFd data (.ok n)))
        { side with stdin := side.stdin ++ data.take n }
  | full {side : Side W} {data : Bytes} (hlisten : W.listens side.state)
      (hfull : capacities.stdin ≤ side.stdin.length) :
      Step capacities p side (.inl (.write p.inFd data (.error .EAGAIN))) side
  | broken {side : Side W} {data : Bytes} (hdeaf : ¬ W.listens side.state) :
      Step capacities p side (.inl (.write p.inFd data (.error .EPIPE))) side
  | readChunk {side : Side W} {n : ℕ} (hn : 0 < n) (hle : n ≤ side.stdout.length) :
      Step capacities p side (.inl (.read p.outFd (.ok (side.stdout.take n))))
        { side with stdout := side.stdout.drop n }
  | readNothing {side : Side W} (hspeak : W.speaks side.state) (hempty : side.stdout = []) :
      Step capacities p side (.inl (.read p.outFd (.error .EAGAIN))) side
  | readEnd {side : Side W} (hmute : ¬ W.speaks side.state) (hempty : side.stdout = []) :
      Step capacities p side (.inl (.read p.outFd (.ok []))) side
  | created {side : Side W} {r : Except Errno Unit} :
      Step capacities p side (.inl (.epollCreate1 r)) { side with registered := ∅ }
  | added {side : Side W} {fd : Fd} {ev : EpollEvent} (hfd : fd ∉ side.registered) :
      Step capacities p side (.inl (.epollCtlAdd fd ev (.ok ())))
        { side with registered := insert fd side.registered }
  | addRefused {side : Side W} {fd : Fd} {ev : EpollEvent} {e : Errno} :
      Step capacities p side (.inl (.epollCtlAdd fd ev (.error e))) side
  | removed {side : Side W} {fd : Fd} (hfd : fd ∈ side.registered) :
      Step capacities p side (.inl (.epollCtlDel fd (.ok ())))
        { side with registered := side.registered.erase fd }
  | removeRefused {side : Side W} {fd : Fd} {e : Errno} (hfd : fd ∉ side.registered) :
      Step capacities p side (.inl (.epollCtlDel fd (.error e))) side
  | waited {side : Side W} {events : List EpollEvent} (h : side.Reports capacities p events) :
      Step capacities p side (.inl (.epollWait (.ok events))) side
  | waitFailed {side : Side W} {e : Errno} :
      Step capacities p side (.inl (.epollWait (.error e))) side
  | elsewhere {side : Side W} {e : Event} (he : Elsewhere p e) :
      Step capacities p side (.inl e) side

theorem Step.state_call {capacities : Capacities} {p : Process} {side side' : Side W} {e : Event}
    (h : Step capacities p side (.inl e) side') : side'.state = side.state := by
  cases h <;> rfl

theorem Step.does {capacities : Capacities} {p : Process} {side side' : Side W} {act : Act}
    (h : Step capacities p side (.inr act) side') : W.does side.state act side'.state := by
  cases h with
  | take hdoes => exact hdoes
  | give hdoes => exact hdoes
  | think hdoes => exact hdoes

end Side

end FlowctlGame
