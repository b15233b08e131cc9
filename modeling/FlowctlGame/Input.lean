import FlowctlGame.Interaction.Fifo
import FlowctlGame.Session

namespace FlowctlGame

open Interaction Unistd Broker

variable {lib : TokenizerLibrary} {fd : Fd} {tr : List Event} {sol sol' : Solution lib}
  {f : Fifo UInt8}

namespace Unistd

def Event.written (fd : Fd) : Event → Bytes
  | .write fd' data (.ok size) => if fd' = fd then data.take size else []
  | _ => []

def written (fd : Fd) (tr : List Event) : Bytes := tr.flatMap (Event.written fd)

def Event.drain (fd : Fd) (f : Fifo UInt8) : Event → Fifo UInt8
  | .write fd' _ (.ok size) => if fd' = fd then f.pop size else f
  | _ => f

def drain (fd : Fd) (f : Fifo UInt8) (tr : List Event) : Fifo UInt8 := tr.foldl (Event.drain fd) f

def Event.terminates : Event → Bool
  | .killer .TERMINATE _ _ => true
  | _ => false

theorem drain_append (fd : Fd) (f : Fifo UInt8) (tr tr' : List Event) :
    drain fd f (tr ++ tr') = drain fd (drain fd f tr) tr' := by
  simp [drain]

theorem written_append (fd : Fd) (tr tr' : List Event) :
    written fd (tr ++ tr') = written fd tr ++ written fd tr' := by
  simp [written]

theorem drain_foreign (f : Fifo UInt8) (h : ∀ data r, .write fd data r ∉ tr) :
    drain fd f tr = f ∧ written fd tr = [] := by
  induction tr with
  | nil => exact ⟨rfl, rfl⟩
  | cons e tr ih =>
    simp only [List.mem_cons, not_or] at h
    obtain ⟨hdrain, hwritten⟩ := ih (fun data r ↦ (h data r).2)
    have hstep : Event.drain fd f e = f ∧ Event.written fd e = [] := by
      cases e with
      | write fd' data r =>
        have hne : fd' ≠ fd := fun heq ↦ (h data r).1 (by rw [heq])
        cases r <;> simp [Event.drain, Event.written, hne]
      | _ => exact ⟨rfl, rfl⟩
    refine ⟨?_, ?_⟩
    · rw [drain, List.foldl_cons, hstep.1]
      exact hdrain
    · rw [written, List.flatMap_cons, hstep.2]
      exact hwritten

end Unistd

namespace Solution

theorem Step.drain {e : Event} (h : Step sol e sol') (hf : f.queue = sol.inbuf) :
    (Event.drain sol.process.inFd f e).queue = sol'.inbuf ∧
      (Event.drain sol.process.inFd f e).out = f.out ++ Event.written sol.process.inFd e ∧
        (Event.drain sol.process.inFd f e).sent = f.sent := by
  cases h with
  | quiet he => cases e <;> first | exact ⟨hf, (List.append_nil _).symm, rfl⟩ | exact he.elim
  | writeFailed => exact ⟨hf, (List.append_nil _).symm, rfl⟩
  | wrote hs hin hpos hsize =>
    have htake := List.length_take_le BUFSIZ sol.inbuf
    simp only [Event.drain, Event.written, if_true, Fifo.pop, hf, List.take_take, Fifo.sent,
      and_true, true_and]
    rw [List.length_take] at hsize
    rw [Nat.min_eq_left (by omega)]
  | readFailed => exact ⟨hf, (List.append_nil _).symm, rfl⟩
  | readNothing => exact ⟨hf, (List.append_nil _).symm, rfl⟩
  | readChunk => exact ⟨by simpa [Event.drain] using hf, (List.append_nil _).symm, rfl⟩

theorem path_drain (h : Path Step sol tr sol') (hf : f.queue = sol.inbuf) :
    (Unistd.drain sol.process.inFd f tr).queue = sol'.inbuf ∧
      (Unistd.drain sol.process.inFd f tr).out = f.out ++ written sol.process.inFd tr ∧
        (Unistd.drain sol.process.inFd f tr).sent = f.sent := by
  induction h generalizing f with
  | nil => exact ⟨hf, (List.append_nil _).symm, rfl⟩
  | @cons s t _ e tr hs h ih =>
    obtain ⟨hq, ho, hsent⟩ := hs.drain hf
    obtain ⟨hq', ho', hsent'⟩ := ih hq
    rw [hs.process_eq] at hq' ho' hsent'
    refine ⟨hq', ?_, hsent'.trans hsent⟩
    rw [ho] at ho'
    rw [written, List.flatMap_cons, ← List.append_assoc]
    exact ho'

theorem Communicated.drain {status : Result.Status} (h : sol.Communicated tr status sol')
    (hf : f.queue = sol.inbuf) :
    (Unistd.drain sol.process.inFd f tr).queue = sol'.inbuf ∧
      (Unistd.drain sol.process.inFd f tr).out = f.out ++ written sol.process.inFd tr ∧
        (Unistd.drain sol.process.inFd f tr).sent = f.sent := by
  cases h with
  | decided => exact ⟨hf, (List.append_nil _).symm, rfl⟩
  | @exchanged _ tr _ garbage thaw ice hs hrun =>
    have hpath := path_drain (communicate_spec _ _ _ _ hrun).1 hf
    have hdrain : Unistd.drain sol.process.inFd f (.indeterminate garbage ::
        .killer .UNFREEZE sol.process.id (.ok thaw) ::
          (tr ++ [.killer .FREEZE sol.process.id (.ok ice)])) =
        Unistd.drain sol.process.inFd f tr := by
      simp [Unistd.drain, Event.drain]
    have hwritten : written sol.process.inFd (.indeterminate garbage ::
        .killer .UNFREEZE sol.process.id (.ok thaw) ::
          (tr ++ [.killer .FREEZE sol.process.id (.ok ice)])) =
        written sol.process.inFd tr := by
      simp [written, Event.written]
    rw [hdrain, hwritten]
    exact hpath

end Solution

namespace BrokerImpl

variable {b b' : BrokerImpl lib} {h : List Exchange} {id : SolutionId} {process : Process}
  {processes : List Process}

def Command.message : Command → Bytes
  | .send _ msg => msg
  | _ => []

/-- The command throws away the input still waiting: it discards it, or it terminates. -/
def Exchange.clears (x : Exchange) : Bool :=
  match x.command with
  | .end' _ discardRemaining => discardRemaining || x.trace.any Event.terminates
  | .terminate _ => true
  | _ => false

/-- The input queue of the solution `id` after one command, as the judge sees it. -/
def serve (id : SolutionId) (process : Process) (f : Fifo UInt8) (x : Exchange) : Fifo UInt8 :=
  let f := drain process.inFd f x.trace
  if x.command.id = id then
    let f := f.push x.command.message
    if x.clears then f.clear else f
  else f

def inbox (id : SolutionId) (process : Process) (h : List Exchange) : Fifo UInt8 :=
  h.foldl (serve id process) .empty

def messages (id : SolutionId) (h : List Exchange) : Bytes :=
  h.flatMap (fun x ↦ if x.command.id = id then x.command.message else [])

theorem serve_own (process : Process) (f : Fifo UInt8) {x : Exchange}
    (hid : x.command.id = id) :
    (serve id process f x).queue =
        (if x.clears then [] else (drain process.inFd f x.trace).queue ++ x.command.message) ∧
      (serve id process f x).out = (drain process.inFd f x.trace).out ∧
        (serve id process f x).sent = (drain process.inFd f x.trace).sent ++ x.command.message := by
  simp only [serve, hid, if_true]
  cases x.clears with
  | false => exact ⟨rfl, rfl, Fifo.sent_push _ _⟩
  | true => exact ⟨rfl, rfl, (Fifo.sent_clear _).trans (Fifo.sent_push _ _)⟩

theorem Effect.input {c : Command} {reply : Option Result} (he : b.Effect c sol tr reply sol')
    (hf : f.queue = sol.inbuf) :
    ((drain sol.process.inFd f tr).out = f.out ++ written sol.process.inFd tr ∧
      (drain sol.process.inFd f tr).sent = f.sent) ∧
    sol'.inbuf = (if (⟨c, .returned reply, tr⟩ : Exchange).clears then []
      else (drain sol.process.inFd f tr).queue ++ c.message) := by
  cases he with
  | begun hc htok hb =>
    refine ⟨⟨(List.append_nil _).symm, rfl⟩, ?_⟩
    rw [hb.inbuf_eq]
    cases c <;> simp_all [opens, Exchange.clears, Command.message, drain, Event.drain]
  | sent htok => exact ⟨⟨(List.append_nil _).symm, rfl⟩, congrArg (· ++ _) hf.symm⟩
  | terminated => exact ⟨⟨(List.append_nil _).symm, rfl⟩, rfl⟩
  | ended htok hended =>
    cases hended with
    | @judged t _ hc =>
      obtain ⟨hq, ho, hsent⟩ := hc.drain hf
      refine ⟨⟨ho, hsent⟩, ?_⟩
      have hno : tr.any Event.terminates = false := by
        refine List.any_eq_false.mpr (fun e he ↦ ?_)
        cases e with
        | killer act id r =>
          cases act with
          | TERMINATE => exact absurd he (hc.not_terminate id r)
          | _ => exact Bool.false_ne_true
        | _ => exact Bool.false_ne_true
      simp [Exchange.clears, hno, hq, Command.message, Solution.closed]
    | @terminated t tr status reply hc hs =>
      obtain ⟨hq, ho, hsent⟩ := hc.drain hf
      rw [drain_append, written_append]
      refine ⟨⟨?_, hsent⟩, ?_⟩
      · simpa [drain, written, Event.drain, Event.written] using ho
      · simp [Exchange.clears, Event.terminates, Solution.dropped]

theorem answers_serve {x : Exchange} (hx : Answers b x b')
    (hsol : b.solutions[id.toNat]? = some sol) (hf : f.queue = sol.inbuf)
    (hforeign : ∀ other, b.solutions[x.command.id.toNat]? = some other → x.command.id ≠ id →
      sol.process.inFd ≠ other.process.inFd) :
    ∃ sol', b'.solutions[id.toNat]? = some sol' ∧ sol'.process = sol.process ∧
      (serve id sol.process f x).queue = sol'.inbuf ∧
        (serve id sol.process f x).out = f.out ++ written sol.process.inFd x.trace ∧
          (serve id sol.process f x).sent =
            f.sent ++ (if x.command.id = id then x.command.message else []) := by
  rcases answers_at hx hsol with
    ⟨hid, sol', reply, hr, he, hsol'⟩ | ⟨hid, hsol', other, hother, haddr⟩
  · obtain ⟨command, outcome, tr⟩ := x
    dsimp only at hid hr he
    subst hr
    obtain ⟨⟨ho, hsent⟩, hinbuf⟩ := he.input hf
    have hown : (⟨command, .returned reply, tr⟩ : Exchange).command.id = id := hid
    obtain ⟨hq', ho', hsent'⟩ := serve_own sol.process f hown
    refine ⟨sol', hsol', he.process_eq, hq'.trans hinbuf.symm, ho'.trans ho, ?_⟩
    rw [hsent', hsent, if_pos hid]
  · have hno : ∀ data r, .write sol.process.inFd data r ∉ x.trace :=
      fun data r hmem ↦ hforeign other hother hid (haddr _ hmem)
    obtain ⟨hdrain, hwritten⟩ := drain_foreign f hno
    refine ⟨sol, hsol', rfl, ?_⟩
    simp [serve, hid, hdrain, hwritten, hf]

theorem inbox_run
    (hdisjoint : ∀ j other, processes[j]? = some other → j ≠ id.toNat →
      process.inFd ≠ other.inFd)
    (hp : Path Answers b h b') (hmap : b.solutions.map (·.process) = processes)
    (hsol : b.solutions[id.toNat]? = some sol) (hproc : sol.process = process)
    (hf : f.queue = sol.inbuf) :
    ∃ sol', b'.solutions[id.toNat]? = some sol' ∧
      (h.foldl (serve id process) f).queue = sol'.inbuf ∧
        (h.foldl (serve id process) f).out =
          f.out ++ written process.inFd (h.flatMap (·.trace)) ∧
        (h.foldl (serve id process) f).sent = f.sent ++ messages id h := by
  induction hp generalizing sol f with
  | nil b => exact ⟨sol, hsol, hf, (List.append_nil _).symm, (List.append_nil _).symm⟩
  | @cons b c _ x h hx hp ih =>
    have hforeign : ∀ other, b.solutions[x.command.id.toNat]? = some other →
        x.command.id ≠ id → sol.process.inFd ≠ other.process.inFd := by
      intro other hother hne
      rw [hproc]
      refine hdisjoint x.command.id.toNat _ ?_ (fun h ↦ hne (UInt64.toNat_inj.mp h))
      rw [← hmap, List.getElem?_map, hother, Option.map_some]
    obtain ⟨sol', hsol', hproc', hq, ho, hsent⟩ := answers_serve hx hsol hf hforeign
    rw [hproc] at hproc' hq ho hsent
    obtain ⟨sol'', hsol'', hq', ho', hsent'⟩ :=
      ih ((answers_processes hx).trans hmap) hsol' hproc' hq
    refine ⟨sol'', hsol'', hq', ?_, ?_⟩
    · rw [List.flatMap_cons, written_append, ← List.append_assoc, ← ho]
      exact ho'
    · rw [messages, List.flatMap_cons, ← List.append_assoc, ← hsent]
      exact hsent'

/-- What was written to a solution, followed by what still waits for it, is what was sent
to it without the bytes that were thrown away while they waited. -/
theorem input_is_lossless {options : Options} {startup : List Event} (hw : options.WellFormed)
    (h₀ : Started options startup b) (hp : Path Answers b h b')
    (hid : options.solutions[id.toNat]? = some process) :
    ∃ sol, b'.solutions[id.toNat]? = some sol ∧
      (inbox id process h).sent = messages id h ∧
        (inbox id process h).queue = sol.inbuf ∧
          written process.inFd (h.flatMap (·.trace)) ++ sol.inbuf = (inbox id process h).kept ∧
            ∀ before x, h = before ++ [x] → x.command.id = id → x.clears → sol.inbuf = [] := by
  obtain ⟨-, rfl⟩ := started_spec h₀
  obtain ⟨sol', hsol', hq, ho, hsent⟩ := inbox_run (f := .empty)
    (fun j other hj hne ↦ (hw.disjoint hid hj hne.symm).1) hp (ready_processes options)
    (ready_solution hid) rfl rfl
  refine ⟨sol', hsol', hsent, hq, ?_, ?_⟩
  · rw [Fifo.kept_eq, inbox, hq, ho]
    rfl
  · intro before x hsplit hx hclears
    rw [← hq, hsplit, List.foldl_append]
    have hown := (serve_own process (before.foldl (serve id process) .empty) hx).1
    rw [hclears] at hown
    exact hown

def drainedAnswer : Answer where
  epollWait := .ok [{ fd := 4, EPOLLOUT := true }, { fd := 5, EPOLLHUP := true }]
  write := .ok 0

def stuckAnswer : Answer where
  epollWait := .ok [{ fd := 5, EPOLLHUP := true }]

/-- A message is written byte by byte, the next one is discarded. -/
def twoMessagesRun : List Exchange :=
  ((ready Options.single : BrokerImpl SplitChar.library).replay
    [(.begin₁ 0, [drainedAnswer]), (.send 0 [97, 98], []),
      (.end' 0 false, List.replicate 14 drainedAnswer), (.begin₁ 0, [stuckAnswer]),
      (.send 0 [99], []), (.end' 0 true, List.replicate 14 stuckAnswer)]).1

theorem input_is_lossless_two_messages :
    ∃ sol : Solution SplitChar.library, (inbox 0 ⟨4, 5, 10⟩ twoMessagesRun).sent =
        messages 0 twoMessagesRun ∧
      (inbox 0 ⟨4, 5, 10⟩ twoMessagesRun).queue = sol.inbuf ∧
        written 4 (twoMessagesRun.flatMap (·.trace)) ++ sol.inbuf =
          (inbox 0 ⟨4, 5, 10⟩ twoMessagesRun).kept ∧
            (inbox 0 ⟨4, 5, 10⟩ twoMessagesRun).kept = [97, 98] := by
  have hp : Path Answers (ready Options.single : BrokerImpl SplitChar.library) twoMessagesRun _ :=
    replay_path _ _ (by decide)
  have hid : Options.single.solutions[(0 : SolutionId).toNat]? = some ⟨4, 5, 10⟩ := rfl
  obtain ⟨sol, -, hsent, hq, hkept, -⟩ :=
    input_is_lossless single_wellFormed single_started hp hid
  exact ⟨sol, hsent, hq, hkept, rfl⟩

end BrokerImpl

end FlowctlGame
