import FlowctlGame.Interaction.Reasoning
import FlowctlGame.Broker

namespace FlowctlGame

open Interaction

namespace Unistd

abbrev Fd := ℤ

def BUFSIZ : ℕ := 8192

def MAXEVENTS : ℕ := 2

def O_NONBLOCK : ℕ := 2048

inductive Errno where
  | EAGAIN
  | EPIPE
  | other (value : ℕ)
deriving DecidableEq, Repr

/-- `epoll_event`: the descriptor in `data.fd` and the bits of `events` that are read. -/
structure EpollEvent where
  fd : Fd
  EPOLLIN : Bool := false
  EPOLLOUT : Bool := false
  EPOLLERR : Bool := false
  EPOLLHUP : Bool := false
deriving DecidableEq, Repr

inductive Exception where
  | systemError (call : String) (errno : Errno)
  | endOfFileError
  | badAlloc
deriving DecidableEq, Repr

/-- How a method of the broker is left other than by `return`. A failed assertion
aborts the process; an exception unwinds the stack. -/
inductive Failure where
  | abort (assertion : String)
  | exception (e : Exception)
deriving DecidableEq, Repr

def Failure.unwinds : Failure → Bool
  | .abort _ => false
  | .exception _ => true

/-- What the environment has in store for the next call, one field for each kind of
call. `indeterminate` is the value found in a status object that was not assigned. -/
structure Answer where
  now : Int := 0
  epollCreate1 : Except Errno Unit := .ok ()
  epollCtl : Except Errno Unit := .ok ()
  epollWait : Except Errno (List EpollEvent) := .ok []
  read : Except Errno Bytes := .error .EAGAIN
  write : Except Errno ℕ := .error .EAGAIN
  fcntlGetfl : Except Errno ℕ := .ok 0
  fcntlSetfl : Except Errno Unit := .ok ()
  killer : Except Exception Killer.Status := .ok .OK
  allocated : Bool := true
  indeterminate : Broker.Result.Status := .OK

inductive Event where
  | now (t : Int)
  | epollCreate1 (r : Except Errno Unit)
  | epollCtlAdd (fd : Fd) (events : EpollEvent) (r : Except Errno Unit)
  | epollCtlDel (fd : Fd) (r : Except Errno Unit)
  | epollWait (r : Except Errno (List EpollEvent))
  | read (fd : Fd) (r : Except Errno Bytes)
  | write (fd : Fd) (data : Bytes) (r : Except Errno ℕ)
  | fcntlGetfl (fd : Fd) (r : Except Errno ℕ)
  | fcntlSetfl (fd : Fd) (flags : ℕ) (r : Except Errno Unit)
  | killer (act : Killer.Act) (id : Killer.Id) (r : Except Exception Killer.Status)
  | newTokenizer (argument : Bytes) (allocated : Bool)
  | indeterminate (status : Broker.Result.Status)

/-- `read` returns at most `BUFSIZ` bytes. -/
def Answer.readUpTo (m : Answer) : Except Errno Bytes := m.read.map (·.take BUFSIZ)

/-- A `write` that succeeds accepts at least one and at most all of the `size` bytes
offered. -/
def Answer.writeOf (m : Answer) (size : ℕ) : Except Errno ℕ := m.write.map (min · (size - 1) + 1)

/-- `epoll_wait` fills at most `MAXEVENTS` entries. -/
def Answer.epollWaitUpTo (m : Answer) : Except Errno (List EpollEvent) :=
  m.epollWait.map (·.take MAXEVENTS)

abbrev Calls (σ α : Type) := Program Answer Event σ Failure α

variable {σ α : Type}

def assert (p : Prop) [Decidable p] (msg : String) : Calls σ Unit :=
  if p then pure () else Program.raise (.abort msg)

def throw (e : Exception) : Calls σ α := Program.raise (.exception e)

def checked (call : String) : Except Errno α → Calls σ α
  | .ok a => pure a
  | .error e => throw (.systemError call e)

def clockNow : Calls σ Int := Program.ask Answer.now .now

def epollCreate1 : Calls σ Unit := do
  let r ← Program.ask Answer.epollCreate1 .epollCreate1
  checked "epoll_create1" r

def epollCtlAdd (fd : Fd) (events : EpollEvent) : Calls σ Unit := do
  let r ← Program.ask Answer.epollCtl (.epollCtlAdd fd events)
  checked "epoll_ctl" r

def epollCtlDel (fd : Fd) : Calls σ Unit := do
  let r ← Program.ask Answer.epollCtl (.epollCtlDel fd)
  checked "epoll_ctl" r

def epollWait : Calls σ (List EpollEvent) := do
  let r ← Program.ask Answer.epollWaitUpTo .epollWait
  checked "epoll_wait" r

def read (fd : Fd) : Calls σ (Except Errno Bytes) := Program.ask Answer.readUpTo (.read fd)

def write (fd : Fd) (data : Bytes) : Calls σ (Except Errno ℕ) :=
  Program.ask (·.writeOf data.length) (.write fd data)

def fcntlGetfl (fd : Fd) : Calls σ ℕ := do
  let r ← Program.ask Answer.fcntlGetfl (.fcntlGetfl fd)
  checked "fcntl" r

def fcntlSetfl (fd : Fd) (flags : ℕ) : Calls σ Unit := do
  let r ← Program.ask Answer.fcntlSetfl (.fcntlSetfl fd flags)
  checked "fcntl" r

def setnonblock (fd : Fd) : Calls σ Unit := do
  let flags ← fcntlGetfl fd
  fcntlSetfl fd (flags ||| O_NONBLOCK)

/-- The calls of a `setnonblock` that finds the flags `flags` and returns. -/
def nonblocking (fd : Fd) (flags : ℕ) : List Event :=
  [.fcntlGetfl fd (.ok flags), .fcntlSetfl fd (flags ||| O_NONBLOCK) (.ok ())]

def killerRequest (act : Killer.Act) (id : Killer.Id) : Calls σ Killer.Status := do
  match ← Program.ask Answer.killer (.killer act id) with
  | .ok status => pure status
  | .error e => throw e

def indeterminate : Calls σ Broker.Result.Status := Program.ask Answer.indeterminate .indeterminate

section Rules

variable {β : Type} {p : Prop} [Decidable p] {msg call : String} {fd : Fd} {s : σ}
  {f : α → Calls σ β} {g : Unit → Calls σ β}
  {Φ : List Event → Outcome Failure α → σ → Prop}
  {Ψ : List Event → Outcome Failure β → σ → Prop}
  {Θ : List Event → Outcome Failure Unit → σ → Prop}

@[simp]
theorem ensures_throw {e : Exception} :
    (throw e : Calls σ α).Ensures s Φ ↔ Φ [] (.raised (.exception e)) s :=
  Program.ensures_raise

@[simp]
theorem ensures_assert_bind :
    (assert p msg >>= g).Ensures s Ψ ↔
      (p → (g ()).Ensures s Ψ) ∧ (¬ p → Ψ [] (.raised (.abort msg)) s) := by
  unfold assert
  by_cases hp : p <;> simp [hp]

@[simp]
theorem ensures_checked_bind {r : Except Errno α} :
    (checked call r >>= f).Ensures s Ψ ↔
      (∀ a, r = .ok a → (f a).Ensures s Ψ) ∧
        ∀ e, r = .error e → Ψ [] (.raised (.exception (.systemError call e))) s := by
  cases r <;> simp [checked, throw]

@[simp]
theorem ensures_checked {r : Except Errno α} :
    (checked call r).Ensures s Φ ↔
      (∀ a, r = .ok a → Φ [] (.returned a) s) ∧
        ∀ e, r = .error e → Φ [] (.raised (.exception (.systemError call e))) s := by
  cases r <;> simp [checked]

@[simp]
theorem ensures_epollCtlDel :
    (epollCtlDel fd : Calls σ Unit).Ensures s Θ ↔
      Θ [] .pending s ∧ Θ [.epollCtlDel fd (.ok ())] (.returned ()) s ∧
        ∀ e, Θ [.epollCtlDel fd (.error e)]
          (.raised (.exception (.systemError "epoll_ctl" e))) s := by
  simp only [epollCtlDel, Program.ensures_ask_bind, ensures_checked]
  constructor
  · intro hx
    obtain ⟨hp, h⟩ := hx
    exact ⟨hp, (h { epollCtl := .ok () }).1 () rfl, fun e ↦ (h { epollCtl := .error e }).2 e rfl⟩
  · intro h
    obtain ⟨hp, hr, he⟩ := h
    refine ⟨hp, fun m ↦ ⟨fun a ha ↦ ?_, fun e h ↦ ?_⟩⟩
    · rw [ha]
      exact hr
    · rw [h]
      exact he e

@[simp]
theorem ensures_killerRequest_bind {act : Killer.Act} {id : Killer.Id}
    {f : Killer.Status → Calls σ β} :
    (killerRequest act id >>= f).Ensures s Ψ ↔
      Ψ [] .pending s ∧
        (∀ status, (f status).Ensures s (fun tr ↦ Ψ (.killer act id (.ok status) :: tr))) ∧
        ∀ e, Ψ [.killer act id (.error e)] (.raised (.exception e)) s := by
  simp only [killerRequest, bind_assoc, Program.ensures_ask_bind]
  constructor
  · intro hx
    obtain ⟨hp, h⟩ := hx
    refine ⟨hp, fun status ↦ ?_, fun e ↦ ?_⟩
    · simpa using h { killer := .ok status }
    · simpa [throw] using h { killer := .error e }
  · intro h
    obtain ⟨hp, hr, he⟩ := h
    refine ⟨hp, fun m ↦ ?_⟩
    cases m.killer with
    | ok status => simpa using hr status
    | error e => simpa [throw] using he e

end Rules

/-- `Clock::now() + realTimeLimit` in the 64-bit nanoseconds of the system clock. -/
def deadline (start : Int) (realTimeLimit : Int64) : Int :=
  Int.bmod (start + realTimeLimit.toInt * 1000000) (2 ^ 64)

end Unistd

end FlowctlGame
