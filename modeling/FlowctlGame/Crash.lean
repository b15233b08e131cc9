import FlowctlGame.Deadline
import FlowctlGame.Interaction.Faults
import FlowctlGame.TokenStream

namespace FlowctlGame

open Interaction Program Unistd Broker

variable {lib : TokenizerLibrary} {process : Process} {sol : Solution lib}

namespace Unistd

/-- The system calls do what they are asked for, `EAGAIN` aside; only a `write` may also
find that its reader has gone. -/
def Event.Usual (process : Process) : Event → Prop
  | .epollCreate1 r | .epollCtlAdd _ _ r | .epollCtlDel _ r | .fcntlSetfl _ _ r => r = .ok ()
  | .fcntlGetfl _ r => ∃ flags, r = .ok flags
  | .epollWait r => ∃ events, r = .ok events ∧ ∀ ev ∈ events, ev.fd = process.inFd →
      (ev.EPOLLERR || ev.EPOLLHUP || ev.EPOLLOUT) = true
  | .read _ r => ∀ e, r = .error e → e = .EAGAIN
  | .write _ _ r => ∀ e, r = .error e → e = .EAGAIN ∨ e = .EPIPE
  | .killer _ _ r => ∃ status, r = .ok status ∧ status ≠ .PROTECTED
  | _ => True

def Event.BrokenPipe : Event → Prop
  | .write _ _ (.error .EPIPE) => True
  | _ => False

end Unistd

namespace TokenizerLibrary

/-- An instance that fails no assertion as long as it answers `CONTINUE`. -/
def Assured (lib : TokenizerLibrary) (tokenizer : lib.Instance) : Prop :=
  ∀ data tokenizer', lib.Fed tokenizer data tokenizer' → ∀ buf, buf ≠ [] →
    ∃ r, lib.call tokenizer' buf = .ok r

theorem Fed.cons {tokenizer tokenizer' tokenizer'' : lib.Instance} {buf data : Bytes} {n : ℕ}
    (hbuf : buf ≠ []) (hcall : lib.call tokenizer buf = .ok (⟨.CONTINUE, n⟩, tokenizer'))
    (h : lib.Fed tokenizer' data tokenizer'') : lib.Fed tokenizer (buf ++ data) tokenizer'' := by
  induction h with
  | new =>
    rw [List.append_nil]
    exact .more .new hbuf hcall
  | more h hbuf' hcall' ih =>
    rw [← List.append_assoc]
    exact .more ih hbuf' hcall'

theorem Assured.next {tokenizer tokenizer' : lib.Instance} {buf : Bytes} {n : ℕ}
    (h : lib.Assured tokenizer) (hbuf : buf ≠ [])
    (hcall : lib.call tokenizer buf = .ok (⟨.CONTINUE, n⟩, tokenizer')) :
    lib.Assured tokenizer' :=
  fun data t hfed ↦ h (buf ++ data) t (hfed.cons hbuf hcall)

end TokenizerLibrary

theorem SplitChar.assured (tokenizer : SplitChar.library.Instance) :
    SplitChar.library.Assured tokenizer := by
  intro data tokenizer' _ buf _
  cases hfind : buf.findIdx? (· = tokenizer'.sep) with
  | none => exact ⟨_, SplitChar.call_of_not_mem hfind⟩
  | some pos => exact ⟨_, SplitChar.call_of_mem hfind⟩

namespace Solution

abbrev Copes {α : Type} (m : Calls (Solution lib) α) (process : Process) (sol : Solution lib)
    (Q : α → Solution lib → Prop) : Prop :=
  m.FailsOn (Event.Usual process) Event.BrokenPipe sol Q

structure Sound (process : Process) (sol : Solution lib) : Prop where
  process_eq : sol.process = process
  tokenizer : ∃ tokenizer, sol.tokenizer = some tokenizer ∧
    (sol.tokenizerStatus = .CONTINUE → lib.Assured tokenizer)

theorem copes_clockNow {Q : Int → Solution lib → Prop} (h : ∀ t, Q t sol) :
    Copes clockNow process sol Q :=
  failsOn_ask (fun m _ ↦ ⟨id, h m.now⟩)

theorem copes_checked {α : Type} {call : String} {reply : Answer → Except Errno α}
    {event : Except Errno α → Event} {P : α → Prop} {Q : α → Solution lib → Prop}
    (husual : ∀ r, (event r).Usual process → ∃ a, r = .ok a ∧ P a)
    (hsafe : ∀ r, ¬ (event r).BrokenPipe) (h : ∀ a, P a → Q a sol) :
    Copes (ask reply event >>= checked call) process sol Q := by
  refine failsOn_ask_bind (fun m hm ↦ .inr ⟨hsafe _, ?_⟩)
  obtain ⟨a, ha, hP⟩ := husual _ hm
  rw [ha]
  exact failsOn_pure (h a hP)

theorem copes_epollCreate1 {Q : Unit → Solution lib → Prop} (h : Q () sol) :
    Copes epollCreate1 process sol Q :=
  copes_checked (P := fun _ ↦ True) (fun _ hr ↦ ⟨(), hr, trivial⟩) (fun _ ↦ id) (fun _ _ ↦ h)

theorem copes_epollCtlAdd {fd : Fd} {events : EpollEvent} {Q : Unit → Solution lib → Prop}
    (h : Q () sol) : Copes (epollCtlAdd fd events) process sol Q :=
  copes_checked (P := fun _ ↦ True) (fun _ hr ↦ ⟨(), hr, trivial⟩) (fun _ ↦ id) (fun _ _ ↦ h)

theorem copes_epollCtlDel {fd : Fd} {Q : Unit → Solution lib → Prop} (h : Q () sol) :
    Copes (epollCtlDel fd) process sol Q :=
  copes_checked (P := fun _ ↦ True) (fun _ hr ↦ ⟨(), hr, trivial⟩) (fun _ ↦ id) (fun _ _ ↦ h)

def Expected (process : Process) (events : List EpollEvent) : Prop :=
  ∀ ev ∈ events, ev.fd = process.inFd → (ev.EPOLLERR || ev.EPOLLHUP || ev.EPOLLOUT) = true

theorem copes_epollWait {Q : List EpollEvent → Solution lib → Prop}
    (h : ∀ events, Expected process events → Q events sol) : Copes epollWait process sol Q :=
  copes_checked (P := Expected process) (fun _ hr ↦ hr) (fun _ ↦ id) h

theorem copes_poll (untilPoint start : Int) :
    Copes (poll untilPoint ([], start)) process sol (fun r t ↦
      t = sol ∧ Expected process r.1) := by
  refine FailsOn.loop (fun b t ↦ t = sol ∧ Expected process b.1) ⟨rfl, by simp [Expected]⟩ ?_
  intro b t hI
  obtain ⟨events, now⟩ := b
  obtain ⟨rfl, hev⟩ := hI
  dsimp only
  split
  · refine (copes_epollWait (Q := fun events s ↦ s = t ∧ Expected process events)
      (fun _ h ↦ ⟨rfl, h⟩)).bind ?_
    intro events' s hs
    obtain ⟨rfl, hev'⟩ := hs
    refine (copes_clockNow (Q := fun _ s' ↦ s' = s) (fun _ ↦ rfl)).bind ?_
    intro now' s' hs'
    subst hs'
    exact failsOn_pure ⟨rfl, hev'⟩
  · exact failsOn_pure ⟨rfl, hev⟩

theorem copes_writeLoop (h : sol.Sound process) :
    Copes writeLoop process sol (fun _ t ↦ t.Sound process) := by
  refine FailsOn.loop (fun _ t ↦ t.Sound process) h ?_
  intro _ t ht
  refine failsOn_get_bind ?_
  split
  · exact failsOn_pure ht
  · refine failsOn_ask_bind (fun m hm ↦ ?_)
    generalize m.writeOf _ = r at hm ⊢
    cases r with
    | ok size =>
      refine .inr ⟨id, failsOn_modify_bind (failsOn_pure ?_)⟩
      exact ⟨ht.process_eq, ht.tokenizer⟩
    | error e =>
      rcases hm e rfl with rfl | rfl
      · exact .inr ⟨id, failsOn_pure ht⟩
      · exact .inl ⟨trivial, _, rfl⟩

theorem copes_handleWriteEnd (h : sol.Sound process) {ev : EpollEvent}
    (hev : (ev.EPOLLERR || ev.EPOLLHUP || ev.EPOLLOUT) = true) :
    Copes (handleWriteEnd ev) process sol (fun _ t ↦ t.Sound process) := by
  refine failsOn_get_bind ?_
  split
  · exact copes_epollCtlDel h
  · rename_i hclosed
    have hout : ev.EPOLLOUT = true := by
      cases hw : ev.EPOLLOUT with
      | true => rfl
      | false => simp_all
    rw [assert, if_pos hout, pure_bind]
    split
    · exact failsOn_pure h
    · refine (copes_writeLoop h).bind (fun _ t ht ↦ failsOn_get_bind ?_)
      split
      · exact copes_epollCtlDel ht
      · exact failsOn_pure ht

theorem copes_handleChunk (h : sol.Sound process) (hs : sol.tokenizerStatus = .CONTINUE)
    {buf : Bytes} (hbuf : buf ≠ []) :
    Copes (handleChunk buf) process sol (fun _ t ↦ t.Sound process) := by
  obtain ⟨tokenizer, htok, hassured⟩ := h.tokenizer
  obtain ⟨⟨⟨status, n⟩, tokenizer'⟩, hcall⟩ := hassured hs [] tokenizer .new buf hbuf
  simp only [handleChunk, callTokenizer, bind_assoc]
  refine failsOn_get_bind ?_
  simp only [htok, hcall, bind_assoc, pure_bind]
  refine failsOn_modify_bind (failsOn_modify_bind ?_)
  cases status with
  | FAIL =>
    exact failsOn_get_bind
      (copes_epollCtlDel ⟨h.process_eq, tokenizer', rfl, fun h ↦ by cases h⟩)
  | CONTINUE =>
    exact failsOn_modify ⟨h.process_eq, tokenizer', rfl, fun _ ↦ (hassured hs).next hbuf hcall⟩
  | ACCEPTED => exact failsOn_modify ⟨h.process_eq, tokenizer', rfl, fun h ↦ by cases h⟩

theorem copes_readLoop (h : sol.Sound process) :
    Copes readLoop process sol (fun _ t ↦ t.Sound process) := by
  refine FailsOn.loop (fun _ t ↦ t.Sound process) h ?_
  intro _ t ht
  refine failsOn_get_bind ?_
  split
  · exact failsOn_pure ht
  · rename_i hs
    refine failsOn_ask_bind (fun m hm ↦ .inr ⟨id, ?_⟩)
    generalize m.readUpTo = r at hm ⊢
    rcases r with e | buf
    · obtain rfl := hm e rfl
      exact failsOn_pure ht
    · cases buf with
      | nil => exact failsOn_pure ht
      | cons c buf =>
        refine (copes_handleChunk ht (by simpa using hs) (List.cons_ne_nil c buf)).bind ?_
        exact fun _ t' ht' ↦ failsOn_pure ht'

theorem copes_handleEvents (h : sol.Sound process) {events : List EpollEvent}
    (hev : Expected process events) :
    Copes (handleEvents events) process sol (fun _ t ↦ t.Sound process) := by
  induction events generalizing sol with
  | nil => exact failsOn_pure h
  | cons ev events ih =>
    obtain ⟨hfirst, hrest⟩ := List.forall_mem_cons.mp hev
    refine failsOn_get_bind ?_
    split
    · rename_i hfd
      rw [h.process_eq] at hfd
      exact (copes_handleWriteEnd h (hfirst hfd)).bind (fun _ t ht ↦ ih ht hrest)
    · split
      · refine FailsOn.bind (Q := fun _ t ↦ t.Sound process) ?_ ?_
        · rw [handleReadEnd_eq]
          split
          · exact failsOn_pure h
          · exact (copes_readLoop h).bind (fun _ t ht ↦ failsOn_pure ht)
        · intro r t ht
          cases r with
          | none => exact ih ht hrest
          | some status => exact failsOn_pure ht
      · exact ih h hrest

theorem copes_communicate (h : sol.Sound process) :
    Copes communicate process sol (fun _ t ↦ t.Sound process) := by
  obtain ⟨tokenizer, htok, -⟩ := h.tokenizer
  refine failsOn_get_bind ?_
  rw [assert, if_pos (by simp [htok]), pure_bind]
  refine (copes_clockNow (Q := fun _ t ↦ t.Sound process) (fun _ ↦ h)).bind (fun start t ht ↦ ?_)
  refine (copes_epollCreate1 (Q := fun _ t ↦ t.Sound process) ht).bind (fun _ t ht ↦ ?_)
  refine (copes_epollCtlAdd (Q := fun _ t ↦ t.Sound process) ht).bind (fun _ t ht ↦ ?_)
  refine (copes_epollCtlAdd (Q := fun _ t ↦ t.Sound process) ht).bind (fun _ t ht ↦ ?_)
  refine FailsOn.loop (fun _ t ↦ t.Sound process) ht (fun _ s hs ↦ failsOn_get_bind ?_)
  split
  · exact failsOn_pure hs
  · refine (copes_clockNow (Q := fun _ t ↦ t = s) (fun _ ↦ rfl)).bind (fun now t ht ↦ ?_)
    subst ht
    refine (copes_poll _ now).bind (fun r t' hr ↦ ?_)
    obtain ⟨rfl, hev⟩ := hr
    dsimp only
    split
    · exact failsOn_pure hs
    · refine (copes_handleEvents hs hev).bind (fun r t' ht' ↦ ?_)
      cases r with
      | none => exact failsOn_pure ht'
      | some status => exact failsOn_pure ht'

theorem copes_killerRequest {act : Killer.Act} {pid : Killer.Id}
    {Q : Killer.Status → Solution lib → Prop} (h : ∀ status, status ≠ .PROTECTED → Q status sol) :
    Copes (killerRequest act pid) process sol Q := by
  refine failsOn_ask_bind (fun m hm ↦ .inr ⟨id, ?_⟩)
  obtain ⟨status, hstatus, hne⟩ := hm
  rw [hstatus]
  exact failsOn_pure (h status hne)

theorem copes_freeze {Q : Killer.Status → Solution lib → Prop} (h : ∀ status, Q status sol) :
    Copes freeze process sol Q := by
  refine failsOn_get_bind ?_
  refine (copes_killerRequest (Q := fun status t ↦ status ≠ .PROTECTED ∧ t = sol)
    (fun _ hne ↦ ⟨hne, rfl⟩)).bind (fun status t ht ↦ ?_)
  obtain ⟨hne, rfl⟩ := ht
  rw [assert, if_pos hne, pure_bind]
  exact failsOn_pure (h status)

theorem copes_unfreeze {Q : Killer.Status → Solution lib → Prop} (h : ∀ status, Q status sol) :
    Copes unfreeze process sol Q := by
  refine failsOn_get_bind ?_
  refine (copes_killerRequest (Q := fun status t ↦ status ≠ .PROTECTED ∧ t = sol)
    (fun _ hne ↦ ⟨hne, rfl⟩)).bind (fun status t ht ↦ ?_)
  obtain ⟨hne, rfl⟩ := ht
  rw [assert, if_pos hne, pure_bind]
  exact failsOn_pure (h status)

theorem copes_endCommunicate (h : sol.Sound process) :
    Copes endCommunicate process sol (fun _ _ ↦ True) := by
  refine failsOn_ask_bind (fun m _ ↦ .inr ⟨id, failsOn_get_bind ?_⟩)
  split
  · refine (copes_unfreeze (Q := fun _ t ↦ t.Sound process) (fun _ ↦ h)).bind (fun _ t ht ↦ ?_)
    refine (copes_communicate ht).bind (fun status t' _ ↦ ?_)
    refine (copes_freeze (Q := fun _ _ ↦ True) (fun _ ↦ trivial)).bind (fun _ _ _ ↦ ?_)
    exact failsOn_pure trivial
  · exact failsOn_pure trivial

theorem copes_conclude (sol : Solution lib) (discardRemaining : Bool) (status : Result.Status) :
    Copes (conclude discardRemaining status) process sol (fun _ _ ↦ True) := by
  have hrest (t : Solution lib) : Copes (if status ≠ .OK then do terminate; pure ⟨status, []⟩
      else verdict) process t (fun _ _ ↦ True) := by
    split
    · refine FailsOn.bind (Q := fun _ _ ↦ True) ?_ (fun _ _ _ ↦ failsOn_pure trivial)
      refine failsOn_get_bind ?_
      refine (copes_killerRequest (Q := fun _ _ ↦ True) (fun _ _ ↦ trivial)).bind ?_
      exact fun _ _ _ ↦ failsOn_modify trivial
    · refine failsOn_get_bind ?_
      split <;> exact failsOn_pure trivial
  cases discardRemaining with
  | false => exact hrest sol
  | true => exact failsOn_modify_bind (hrest _)

theorem copes_end (h : sol.Sound process) (discardRemaining : Bool) :
    Copes (end' discardRemaining) process sol (fun _ _ ↦ True) := by
  obtain ⟨tokenizer, htok, -⟩ := h.tokenizer
  refine failsOn_get_bind ?_
  rw [assert, if_pos (by simp [htok]), pure_bind]
  refine FailsOn.scopeExit ?_
  exact (copes_endCommunicate h).bind (fun status t _ ↦ copes_conclude t discardRemaining status)

end Solution

namespace BrokerImpl

variable {b : BrokerImpl lib} {c : Command} {id : SolutionId} {discardRemaining : Bool}
  {ω : Stream Answer}

/-- How far the command gets with the first `n` answers of `ω`. -/
abbrev served (b : BrokerImpl lib) (c : Command) (ω : Stream Answer) (n : ℕ) :
    Execution Event (BrokerImpl lib) Failure (Option Result) :=
  (run c).run b (ω.slice 0 n)

theorem served_frame (b : BrokerImpl lib) (c : Command) (ω : Stream Answer) (n : ℕ) {j : ℕ}
    (hj : j ≠ c.id.toNat) : (b.served c ω n).state.solutions[j]? = b.solutions[j]? := by
  have hx : Serves b ⟨c, (b.served c ω n).outcome, (b.served c ω n).trace⟩
      (b.served c ω n).state := executes_run _ _ _
  exact serves_frame hx hj

theorem served_end_pending (hsol : b.solutions[id.toNat]? = some sol) (n : ℕ) :
    (b.served (.end' id discardRemaining) ω n).outcome = .pending ↔
      ((Solution.end' discardRemaining).run sol (ω.slice 0 n)).outcome = .pending := by
  rw [← solution_outcome hsol]
  unfold served run
  rw [run_bind]
  cases ho : ((solution id (Solution.end' discardRemaining)).run b (ω.slice 0 n)).outcome with
  | returned result => simp [Execution.andThen, ho, run_pure]
  | raised e => simp [Execution.andThen, ho]
  | pending => simp [Execution.andThen, ho]

/-- Where every other call behaves and the clock ticks, `end` returns and leaves the other
solutions alone exactly if no `write` finds its reader gone and no endless flood is read. -/
theorem end_survives_iff {b : BrokerImpl lib} {id : SolutionId} {discardRemaining : Bool}
    (hω : Ticking ω) (hsol : b.solutions[id.toNat]? = some sol) (hsound : sol.Sound process)
    (husual : ∀ n, ∀ e ∈ (b.served (.end' id discardRemaining) ω n).trace, e.Usual process) :
    (∃ n result, (b.served (.end' id discardRemaining) ω n).outcome = .returned (some result) ∧
      ∀ j, j ≠ id.toNat →
        (b.served (.end' id discardRemaining) ω n).state.solutions[j]? = b.solutions[j]?) ↔
    (∀ n, ∀ e ∈ (b.served (.end' id discardRemaining) ω n).trace, ¬ e.BrokenPipe) ∧
      Solution.Unflooded (Solution.end' discardRemaining) ω sol 0 := by
  have hfails : (run (.end' id discardRemaining)).FailsOn (Event.Usual process)
      Event.BrokenPipe b (fun reply _ ↦ ∃ result, reply = some result) := by
    refine FailsOn.bind (Q := fun _ _ ↦ True) ?_ (fun result _ _ ↦ failsOn_pure ⟨result, rfl⟩)
    unfold solution solutionAt
    exact FailsOn.focus hsol (Solution.copes_end hsound discardRemaining)
  rw [← (Solution.ends_end hω discardRemaining).ends_iff]
  simp only [ne_eq, ← served_end_pending hsol]
  rw [← hfails.returns_iff husual]
  constructor
  · intro h
    obtain ⟨n, result, ho, -⟩ := h
    exact ⟨n, some result, ho⟩
  · intro h
    obtain ⟨n, reply, ho⟩ := h
    have hend := hfails _ _ _ (executes_run _ b (ω.slice 0 n)) (husual n)
    rw [ho] at hend
    obtain ⟨-, result, rfl⟩ := hend
    exact ⟨n, result, ho, fun j hj ↦ served_frame b _ ω n hj⟩

def messageWaiting : List Exchange × BrokerImpl SplitChar.library :=
  (ready Options.single : BrokerImpl SplitChar.library).replay
    [(.begin₁ 0, [{}]), (.send 0 [120], [])]

def waitingSolution : Solution SplitChar.library :=
  { begunSolution with inbuf := [120] }

theorem messageWaiting_sound :
    messageWaiting.2.solutions[(0 : SolutionId).toNat]? = some waitingSolution ∧
      waitingSolution.Sound ⟨4, 5, 10⟩ :=
  ⟨rfl, rfl, ⟨10⟩, rfl, fun _ ↦ SplitChar.assured _⟩

/-- The write end is reported writable, the `write` that follows is answered by `r`. -/
def overPipe (r : Except Errno ℕ) : Stream Answer where
  symbol n :=
    { now := n
      epollWait := .ok [{ fd := 4, EPOLLOUT := true }, { fd := 5, EPOLLHUP := true }]
      write := r }
  length := ⊤

theorem overPipe_ticking (r : Except Errno ℕ) : Ticking (overPipe r) :=
  ⟨Int.le_refl 0, fun k ↦ Int.le_of_eq (Int.natCast_succ k).symm⟩

def untilWrite (r : Except Errno ℕ) : List Event :=
  [.indeterminate .OK, .killer .UNFREEZE 10 (.ok .OK), .now 2, .epollCreate1 (.ok ()),
    .epollCtlAdd 4 { fd := 4, EPOLLOUT := true } (.ok ()),
    .epollCtlAdd 5 { fd := 5, EPOLLIN := true } (.ok ()), .now 6,
    .epollWait (.ok [{ fd := 4, EPOLLOUT := true }, { fd := 5, EPOLLHUP := true }]), .now 8,
    .write 4 [120] r]

theorem untilWrite_usual {r : Except Errno ℕ} (hr : ∀ e, r = .error e → e = .EAGAIN ∨ e = .EPIPE) :
    ∀ e ∈ untilWrite r, e.Usual ⟨4, 5, 10⟩ := by
  simpa [untilWrite, Event.Usual] using hr

theorem served_overPipe_ok (n : ℕ) :
    (messageWaiting.2.served (.end' 0 false) (overPipe (.ok 0)) n).trace =
      (untilWrite (.ok 1) ++
        [Event.epollCtlDel 4 (.ok ()), .killer .FREEZE 10 (.ok .OK)]).take n := by
  rcases Nat.lt_or_ge n 12 with hn | hn
  · interval_cases n <;> rfl
  · unfold served
    rw [run_slice_mono hn (by decide), List.take_of_length_le hn]
    rfl

theorem served_overPipe_error (n : ℕ) :
    (messageWaiting.2.served (.end' 0 false) (overPipe (.error .EPIPE)) n).trace =
      (untilWrite (.error .EPIPE)).take n := by
  rcases Nat.lt_or_ge n 10 with hn | hn
  · interval_cases n <;> rfl
  · unfold served
    rw [run_slice_mono hn (by decide), List.take_of_length_le hn]
    rfl

theorem end_survives_iff_writable :
    (∃ n result, (messageWaiting.2.served (.end' 0 false) (overPipe (.ok 0)) n).outcome =
        .returned (some result) ∧
      ∀ j, j ≠ (0 : SolutionId).toNat →
        (messageWaiting.2.served (.end' 0 false) (overPipe (.ok 0)) n).state.solutions[j]? =
          messageWaiting.2.solutions[j]?) ∧
    (∀ n, ∀ e ∈ (messageWaiting.2.served (.end' 0 false) (overPipe (.ok 0)) n).trace,
      ¬ e.BrokenPipe) ∧
    Solution.Unflooded (Solution.end' false) (overPipe (.ok 0)) waitingSolution 0 := by
  have husual : ∀ n, ∀ e ∈ (messageWaiting.2.served (.end' 0 false) (overPipe (.ok 0)) n).trace,
      e.Usual ⟨4, 5, 10⟩ := by
    intro n e he
    rw [served_overPipe_ok] at he
    refine List.forall_mem_append.mpr ⟨untilWrite_usual (by simp), ?_⟩ e (List.mem_of_mem_take he)
    simp [Event.Usual]
  have hiff := end_survives_iff (overPipe_ticking _) messageWaiting_sound.1
    messageWaiting_sound.2 husual
  have hends : ∃ n result, (messageWaiting.2.served (.end' 0 false) (overPipe (.ok 0)) n).outcome =
        .returned (some result) ∧ ∀ j, j ≠ (0 : SolutionId).toNat →
        (messageWaiting.2.served (.end' 0 false) (overPipe (.ok 0)) n).state.solutions[j]? =
          messageWaiting.2.solutions[j]? :=
    ⟨12, _, rfl, fun j hj ↦ served_frame _ _ _ _ hj⟩
  exact ⟨hends, hiff.mp hends⟩

/-- The solution has gone between the report that its input is writable and the `write`. -/
theorem end_throws_on_broken_pipe :
    Path Answers (ready Options.single) messageWaiting.1 messageWaiting.2 ∧
      Ticking (overPipe (.error .EPIPE)) ∧
      (∀ n, ∀ e ∈ (messageWaiting.2.served (.end' 0 false) (overPipe (.error .EPIPE)) n).trace,
        e.Usual ⟨4, 5, 10⟩) ∧
      ∃ n, (messageWaiting.2.served (.end' 0 false) (overPipe (.error .EPIPE)) n).outcome =
        .raised (.exception (.systemError "write" .EPIPE)) := by
  refine ⟨replay_path _ _ (by decide), overPipe_ticking _, fun n e he ↦ ?_, 10, rfl⟩
  rw [served_overPipe_error] at he
  exact untilWrite_usual (by simp) e (List.mem_of_mem_take he)

end BrokerImpl

end FlowctlGame
