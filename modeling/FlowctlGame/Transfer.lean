import FlowctlGame.Interaction.Path
import FlowctlGame.Communicate

namespace FlowctlGame

open Interaction Program Unistd Broker

/-- The calls that neither move data of a solution nor address the killer. -/
def Unistd.Event.Quiet : Event → Prop
  | .now _ | .epollCreate1 _ | .epollCtlAdd _ _ _ | .epollCtlDel _ _ | .epollWait _ => True
  | _ => False

def Unistd.Event.transfers : Event → Bool
  | .read _ _ | .write _ _ _ => true
  | _ => false

def Unistd.Event.requests : Event → Bool
  | .killer _ _ _ => true
  | _ => false

/-- The pipes and the process that a call names, if any, are those of `process`. -/
def Unistd.Event.Addresses (process : Process) : Event → Prop
  | .read fd _ => fd = process.outFd
  | .write fd _ _ => fd = process.inFd
  | .killer _ id _ => id = process.id
  | _ => True

/-- The descriptor `fd` was reported without `EPOLLIN`, which is taken for the end of
the solution's output. -/
def Unistd.EofReported (fd : Fd) (tr : List Event) : Prop :=
  ∃ events ev, Event.epollWait (.ok events) ∈ tr ∧ ev ∈ events ∧ ev.fd = fd ∧ ev.EPOLLIN = false

theorem Unistd.EofReported.append_right {fd : Fd} {tr : List Event} (tr' : List Event)
    (h : EofReported fd tr) : EofReported fd (tr' ++ tr) := by
  obtain ⟨events, ev, hmem, hev⟩ := h
  exact ⟨events, ev, List.mem_append_right _ hmem, hev⟩

namespace Solution

variable {lib : TokenizerLibrary}

/-- The record after the tokenizer was given the chunk `buf`. -/
def absorb (sol : Solution lib) (buf : Bytes) : Solution lib :=
  match sol.tokenizer with
  | none => sol
  | some tokenizer =>
    match lib.call tokenizer buf with
    | .error _ => sol
    | .ok (result, tokenizer') =>
      let sol := { sol with tokenizer := some tokenizer', tokenizerStatus := result.status }
      match result.status with
      | .FAIL => sol
      | .CONTINUE => { sol with result := sol.result ++ buf }
      | .ACCEPTED => { sol with
          result := sol.result ++ buf.take result.accepted
          outbuf := sol.outbuf ++ buf.drop result.accepted }

@[simp]
theorem absorb_process (sol : Solution lib) (buf : Bytes) :
    (sol.absorb buf).process = sol.process := by
  unfold absorb
  split
  · rfl
  · split
    · rfl
    · dsimp only
      split <;> rfl

@[simp]
theorem absorb_inbuf (sol : Solution lib) (buf : Bytes) :
    (sol.absorb buf).inbuf = sol.inbuf := by
  unfold absorb
  split
  · rfl
  · split
    · rfl
    · dsimp only
      split <;> rfl

/-- What one call made by `communicate` does to the record it works on. -/
inductive Step : Solution lib → Event → Solution lib → Prop
  | quiet {sol : Solution lib} {e : Event} (he : e.Quiet) : Step sol e sol
  | writeFailed {sol : Solution lib} {e : Errno} (hs : sol.tokenizerStatus = .CONTINUE)
      (hin : sol.inbuf ≠ []) :
      Step sol (.write sol.process.inFd (sol.inbuf.take BUFSIZ) (.error e)) sol
  | wrote {sol : Solution lib} {size : ℕ} (hs : sol.tokenizerStatus = .CONTINUE)
      (hin : sol.inbuf ≠ []) (hpos : 0 < size) (hsize : size ≤ (sol.inbuf.take BUFSIZ).length) :
      Step sol (.write sol.process.inFd (sol.inbuf.take BUFSIZ) (.ok size))
        { sol with inbuf := sol.inbuf.drop size }
  | readFailed {sol : Solution lib} {e : Errno} (hs : sol.tokenizerStatus = .CONTINUE) :
      Step sol (.read sol.process.outFd (.error e)) sol
  | readNothing {sol : Solution lib} (hs : sol.tokenizerStatus = .CONTINUE) :
      Step sol (.read sol.process.outFd (.ok [])) sol
  | readChunk {sol : Solution lib} {buf : Bytes} (hs : sol.tokenizerStatus = .CONTINUE)
      (hbuf : buf ≠ []) (hlen : buf.length ≤ BUFSIZ) :
      Step sol (.read sol.process.outFd (.ok buf)) (sol.absorb buf)

theorem Step.process_eq {sol sol' : Solution lib} {e : Event} (h : Step sol e sol') :
    sol'.process = sol.process := by
  cases h <;> simp

theorem Step.addresses {sol sol' : Solution lib} {e : Event} (h : Step sol e sol') :
    e.Addresses sol.process := by
  cases h with
  | quiet he => cases e <;> trivial
  | _ => exact rfl

theorem path_process_eq {sol sol' : Solution lib} {tr : List Event} (h : Path Step sol tr sol') :
    sol'.process = sol.process :=
  h.preserves (I := fun t ↦ t.process = sol.process) (fun _ _ _ hs h ↦ hs.process_eq.trans h) rfl

theorem path_addresses {sol sol' : Solution lib} {tr : List Event} (h : Path Step sol tr sol') :
    ∀ e ∈ tr, e.Addresses sol.process := by
  induction h with
  | nil => simp
  | cons hs h ih =>
    rw [hs.process_eq] at ih
    exact List.forall_mem_cons.mpr ⟨hs.addresses, ih⟩

theorem path_killer {sol sol' : Solution lib} {tr : List Event} (h : Path Step sol tr sol')
    {act : Killer.Act} {id : Killer.Id} {r : Except Exception Killer.Status} :
    .killer act id r ∉ tr := by
  induction h with
  | nil => simp
  | cons hs h ih =>
    simp only [List.mem_cons, not_or]
    refine ⟨fun he ↦ ?_, ih⟩
    subst he
    cases hs with
    | quiet he => exact he

theorem path_quiet (sol : Solution lib) {tr : List Event} (h : ∀ e ∈ tr, e.Quiet) :
    Path Step sol tr sol := by
  induction tr with
  | nil => exact .nil sol
  | cons e tr ih =>
    obtain ⟨hquiet, hrest⟩ := List.forall_mem_cons.mp h
    exact .cons (.quiet hquiet) (ih hrest)

theorem writeOf_ok {m : Answer} {size n : ℕ} (h : m.writeOf n = .ok size) (hn : 0 < n) :
    0 < size ∧ size ≤ n := by
  unfold Answer.writeOf at h
  cases hw : m.write with
  | error e => simp [hw, Except.map] at h
  | ok k =>
    simp only [hw, Except.map, Except.ok.injEq] at h
    omega

theorem readUpTo_ok {m : Answer} {buf : Bytes} (h : m.readUpTo = .ok buf) :
    buf.length ≤ BUFSIZ := by
  unfold Answer.readUpTo at h
  cases hr : m.read with
  | error e => simp [hr, Except.map] at h
  | ok data =>
    simp only [hr, Except.map, Except.ok.injEq] at h
    subst h
    exact List.length_take_le _ _

theorem take_bufsiz_length_pos {inbuf : Bytes} (h : inbuf ≠ []) :
    0 < (inbuf.take BUFSIZ).length := by
  have := List.length_pos_iff.mpr h
  simp only [List.length_take, BUFSIZ]
  omega

theorem writeLoop_spec (sol : Solution lib) (hs : sol.tokenizerStatus = .CONTINUE) :
    writeLoop.Ensures sol (fun tr _ sol' ↦
      Path Step sol tr sol' ∧ sol'.tokenizerStatus = .CONTINUE) := by
  refine Ensures.loop (fun _ tr sol' ↦
    Path Step sol tr sol' ∧ sol'.tokenizerStatus = .CONTINUE) ⟨.nil sol, hs⟩ ?_ ?_
  · exact fun _ _ _ h ↦ h
  · intro _ tr t h
    obtain ⟨hp, ht⟩ := h
    simp only [ensures_get_bind]
    split
    · simpa using ⟨hp, ht⟩
    · rename_i hin
      simp only [write, ensures_ask_bind]
      refine ⟨by simpa using ⟨hp, ht⟩, fun m ↦ ?_⟩
      split
      · rename_i he
        simp only [ensures_pure, he]
        exact ⟨hp.snoc (.writeFailed ht hin), ht⟩
      · rename_i e he hne
        simp only [ensures_throw, hne]
        exact ⟨hp.snoc (.writeFailed ht hin), ht⟩
      · rename_i size hsize
        simp only [ensures_modify_bind, ensures_pure, hsize]
        obtain ⟨hpos, hle⟩ := writeOf_ok hsize (take_bufsiz_length_pos hin)
        exact ⟨hp.snoc (.wrote ht hin hpos hle), ht⟩

theorem handleChunk_spec (sol : Solution lib) (buf : Bytes) :
    (handleChunk buf).Ensures sol (fun tr _ sol' ↦
      (∀ e ∈ tr, e.Quiet) ∧ sol' = sol.absorb buf) := by
  simp only [handleChunk, callTokenizer, absorb, bind_assoc, ensures_get_bind]
  cases ht : sol.tokenizer with
  | none => simp
  | some tokenizer =>
    cases hc : lib.call tokenizer buf with
    | error msg => simp [hc]
    | ok r =>
      simp only [hc, bind_assoc, ensures_modify_bind, pure_bind]
      cases hr : r.1.status <;> simp [Event.Quiet]

theorem readLoop_spec (sol : Solution lib) :
    readLoop.Ensures sol (fun tr _ sol' ↦ Path Step sol tr sol') := by
  refine Ensures.loop (fun _ tr sol' ↦ Path Step sol tr sol') (.nil sol) ?_ ?_
  · exact fun _ _ _ h ↦ h
  · intro _ tr t hp
    simp only [ensures_get_bind]
    split
    · simpa using hp
    · rename_i hs
      have ht : t.tokenizerStatus = .CONTINUE := by simpa using hs
      simp only [Unistd.read, ensures_ask_bind]
      refine ⟨by simpa using hp, fun m ↦ ?_⟩
      split
      · rename_i hr
        simp only [ensures_pure, hr]
        exact hp.snoc (.readNothing ht)
      · rename_i hr
        simp only [ensures_pure, hr]
        exact hp.snoc (.readFailed ht)
      · rename_i e he hr
        simp only [ensures_throw, hr]
        exact hp.snoc (.readFailed ht)
      · rename_i buf hne hr
        have hbuf : buf ≠ [] := fun h ↦ hne (by rw [h])
        have hstep : Path Step sol (tr ++ [.read t.process.outFd m.readUpTo]) (t.absorb buf) := by
          rw [hr]
          exact hp.snoc (.readChunk ht hbuf (readUpTo_ok hr))
        refine (handleChunk_spec t buf).sequence ?_ ?_ ?_
        · intro tr' _ t' h
          obtain ⟨hq, rfl⟩ := h
          simpa using hstep.append (path_quiet _ hq)
        · intro tr' e t' h
          obtain ⟨hq, rfl⟩ := h
          simpa using hstep.append (path_quiet _ hq)
        · intro tr' t' h
          obtain ⟨hq, rfl⟩ := h
          simpa using hstep.append (path_quiet _ hq)

theorem handleWriteEnd_spec (sol : Solution lib) (ev : EpollEvent) :
    (handleWriteEnd ev).Ensures sol (fun tr _ sol' ↦ Path Step sol tr sol') := by
  have hdel (t : Solution lib) (fd : Fd) (r : Except Errno Unit) :
      Path Step t [.epollCtlDel fd r] t := .one (.quiet trivial)
  simp only [handleWriteEnd, ensures_get_bind]
  split
  · simpa using ⟨.nil sol, hdel _ _ _, fun e ↦ hdel _ _ _⟩
  · simp only [ensures_assert_bind]
    refine ⟨fun _ ↦ ?_, fun _ ↦ .nil sol⟩
    split
    · simpa using Path.nil sol
    · rename_i hs
      refine (writeLoop_spec sol (by simpa using hs)).sequence ?_ ?_ ?_
      · intro tr _ t h
        obtain ⟨hp, ht⟩ := h
        simp only [ensures_get_bind]
        split
        · simpa using ⟨hp, hp.append (hdel _ _ _), fun e ↦ hp.append (hdel _ _ _)⟩
        · simpa using hp
      · exact fun _ _ _ h ↦ h.1
      · exact fun _ _ h ↦ h.1

theorem handleReadEnd_spec (sol : Solution lib) (ev : EpollEvent) :
    (handleReadEnd ev).Ensures sol (fun tr o sol' ↦
      Path Step sol tr sol' ∧
        ∀ status, o = .returned (some status) → status = .OK ∧ ev.EPOLLIN = false) := by
  rw [handleReadEnd_eq]
  split
  · rename_i h
    simp only [ensures_pure]
    exact ⟨.nil sol, fun status hs ↦ ⟨by cases hs; rfl, by simpa using h⟩⟩
  · refine (readLoop_spec sol).sequence ?_ ?_ ?_
    · intro tr _ t hp
      simpa using hp
    · exact fun tr e t hp ↦ ⟨hp, fun _ h ↦ by cases h⟩
    · exact fun tr t hp ↦ ⟨hp, fun _ h ↦ by cases h⟩

theorem handleEvents_spec (sol : Solution lib) (events : List EpollEvent) :
    (handleEvents events).Ensures sol (fun tr o sol' ↦
      Path Step sol tr sol' ∧ ∀ status, o = .returned (some status) →
        status = .OK ∧ ∃ ev ∈ events, ev.fd = sol.process.outFd ∧ ev.EPOLLIN = false) := by
  induction events generalizing sol with
  | nil => simpa [handleEvents] using Path.nil sol
  | cons ev events ih =>
    -- the rest of the batch, after a path to `t`
    have hrest : ∀ tr t, Path Step sol tr t → (handleEvents events).Ensures t (fun tr' o sol' ↦
        Path Step sol (tr ++ tr') sol' ∧ ∀ status, o = .returned (some status) →
          status = .OK ∧ ∃ ev' ∈ ev :: events,
            ev'.fd = sol.process.outFd ∧ ev'.EPOLLIN = false) := by
      intro tr t hp
      refine (ih t).mono (fun tr' o t' h ↦ ⟨hp.append h.1, fun status hs ↦ ?_⟩)
      obtain ⟨hok, ev', hmem, hev⟩ := h.2 status hs
      rw [path_process_eq hp] at hev
      exact ⟨hok, ev', List.mem_cons_of_mem _ hmem, hev⟩
    simp only [handleEvents, ensures_get_bind]
    split
    · refine (handleWriteEnd_spec sol ev).sequence ?_ ?_ ?_
      · exact fun tr _ t hp ↦ hrest tr t hp
      · exact fun tr e t hp ↦ ⟨hp, fun _ h ↦ by cases h⟩
      · exact fun tr t hp ↦ ⟨hp, fun _ h ↦ by cases h⟩
    · split
      · rename_i hfd
        refine (handleReadEnd_spec sol ev).sequence ?_ ?_ ?_
        · intro tr o t h
          obtain ⟨hp, ho⟩ := h
          obtain _ | status := o
          · exact hrest tr t hp
          · obtain ⟨hok, hev⟩ := ho status rfl
            simp only [ensures_pure, List.append_nil]
            refine ⟨hp, fun status' hs ↦ ?_⟩
            cases hs
            exact ⟨hok, ev, List.mem_cons_self .., hfd, hev⟩
        · exact fun tr e t h ↦ ⟨h.1, fun _ h ↦ by cases h⟩
        · exact fun tr t h ↦ ⟨h.1, fun _ h ↦ by cases h⟩
      · simpa using hrest [] sol (.nil sol)

theorem poll_spec (sol : Solution lib) (untilPoint start : Int) :
    (poll untilPoint ([], start)).Ensures sol (fun tr o sol' ↦
      (∀ e ∈ tr, e.Quiet) ∧ sol' = sol ∧ ∀ events now, o = .returned (events, now) →
        events ≠ [] → Event.epollWait (.ok events) ∈ tr) := by
  unfold poll
  refine Ensures.loop (fun b tr sol' ↦ (∀ e ∈ tr, e.Quiet) ∧ sol' = sol ∧
    (b.1 ≠ [] → Event.epollWait (.ok b.1) ∈ tr)) (by simp) ?_ ?_
  · intro b tr t h
    obtain ⟨hq, ht, -⟩ := h
    exact ⟨hq, ht, fun _ _ h ↦ by cases h⟩
  · intro polled tr t h
    obtain ⟨events, now⟩ := polled
    obtain ⟨hq, rfl, hev⟩ := h
    have hquiet (r : Except Errno (List EpollEvent)) :
        ∀ e ∈ tr ++ [Event.epollWait r], e.Quiet := by
      intro e he
      rcases List.mem_append.mp he with he | he
      · exact hq e he
      · rw [List.mem_singleton.mp he]
        trivial
    dsimp only
    split
    · simp only [epollWait, bind_assoc, ensures_ask_bind, ensures_checked_bind]
      refine ⟨by simpa using hq, fun m ↦ ⟨fun events' hm ↦ ?_, fun e hm ↦ ?_⟩⟩
      · rw [hm]
        simp only [clockNow, ensures_ask_bind, ensures_pure]
        refine ⟨by simpa using hquiet (.ok events'), fun m' ↦ ⟨?_, trivial, by simp⟩⟩
        intro e he
        simp only [List.mem_append, List.mem_cons, List.not_mem_nil, or_false] at he
        rcases he with he | rfl | rfl
        · exact hq e he
        · trivial
        · trivial
      · rw [hm]
        exact ⟨by simpa using hquiet (.error e), trivial, fun _ _ h ↦ by cases h⟩
    · simp only [ensures_pure, List.append_nil]
      refine ⟨hq, trivial, fun events' now' h hne ↦ ?_⟩
      cases h
      exact hev hne

/-- How `communicate` may come to return `status` along the trace `tr`. -/
def Concludes (sol : Solution lib) (tr : List Event) : Result.Status → Prop
  | .OK => sol.tokenizerStatus ≠ .CONTINUE ∨ EofReported sol.process.outFd tr
  | .REAL_TIME_LIMIT_EXCEEDED => sol.tokenizerStatus = .CONTINUE
  | _ => False

theorem Concludes.prepend {sol : Solution lib} {tr : List Event} {status : Result.Status}
    (tr' : List Event) (h : sol.Concludes tr status) : sol.Concludes (tr' ++ tr) status := by
  cases status with
  | OK => exact h.imp_right (fun h ↦ h.append_right tr')
  | REAL_TIME_LIMIT_EXCEEDED => exact h
  | _ => exact h.elim

theorem round_spec (sol : Solution lib) (untilPoint : Int) :
    (round untilPoint ()).Ensures sol (fun tr o sol' ↦
      Path Step sol tr sol' ∧ ∀ status, o = .returned (.inr status) →
        sol'.Concludes tr status) := by
  simp only [round, ensures_get_bind]
  split
  · rename_i hs
    simp only [ensures_pure]
    refine ⟨.nil sol, fun status h ↦ ?_⟩
    cases h
    exact .inl hs
  · rename_i hs
    have hcont : sol.tokenizerStatus = .CONTINUE := by simpa using hs
    simp only [clockNow, ensures_ask_bind]
    refine ⟨⟨.nil sol, fun _ h ↦ by cases h⟩, fun m ↦ ?_⟩
    have hclock (tr : List Event) (hq : ∀ e ∈ tr, e.Quiet) :
        Path Step sol (.now m.now :: tr) sol := .cons (.quiet trivial) (path_quiet sol hq)
    refine (poll_spec sol untilPoint m.now).sequence ?_ ?_ ?_
    · intro tr polled t h
      obtain ⟨events, now⟩ := polled
      obtain ⟨hq, rfl, hev⟩ := h
      dsimp only
      split
      · simp only [ensures_pure, List.append_nil]
        refine ⟨hclock tr hq, fun status h ↦ ?_⟩
        cases h
        exact hcont
      · refine (handleEvents_spec t events).sequence ?_ ?_ ?_
        · intro tr' o t' h
          obtain ⟨hp, ho⟩ := h
          obtain _ | status := o
          · simp only [ensures_pure, List.append_nil]
            exact ⟨(hclock tr hq).append hp, fun _ h ↦ by cases h⟩
          · simp only [ensures_pure, List.append_nil]
            refine ⟨(hclock tr hq).append hp, fun status' h ↦ ?_⟩
            cases h
            obtain ⟨rfl, ev, hmem, hfd, hin⟩ := ho status rfl
            refine .inr ⟨events, ev, ?_, hmem, ?_, hin⟩
            · exact List.mem_cons_of_mem _ (List.mem_append_left _
                (hev events now rfl (List.ne_nil_of_mem hmem)))
            · rw [path_process_eq hp]
              exact hfd
        · exact fun tr' e t' h ↦ ⟨(hclock tr hq).append h.1, fun _ h ↦ by cases h⟩
        · exact fun tr' t' h ↦ ⟨(hclock tr hq).append h.1, fun _ h ↦ by cases h⟩
    · intro tr e t h
      obtain ⟨hq, rfl, -⟩ := h
      exact ⟨hclock tr hq, fun _ h ↦ by cases h⟩
    · intro tr t h
      obtain ⟨hq, rfl, -⟩ := h
      exact ⟨hclock tr hq, fun _ h ↦ by cases h⟩

/-- What is known of every execution of `communicate`, finished or not: it is a path of
`Step`, and it returns `OK` only when the tokenizer has decided or the end of the output
was reported. -/
def Conforms (sol : Solution lib) (tr : List Event) (o : Outcome Failure Result.Status)
    (sol' : Solution lib) : Prop :=
  Path Step sol tr sol' ∧ ∀ status, o = .returned status → sol'.Concludes tr status

theorem Conforms.prepend {sol t sol' : Solution lib} {tr tr' : List Event}
    {o : Outcome Failure Result.Status} (h : Path Step sol tr t) (h' : Conforms t tr' o sol') :
    Conforms sol (tr ++ tr') o sol' :=
  ⟨h.append h'.1, fun status hs ↦ (h'.2 status hs).prepend tr⟩

def Idle {α : Type} (m : Calls (Solution lib) α) : Prop :=
  ∀ sol, m.Ensures sol (fun tr _ sol' ↦ (∀ e ∈ tr, e.Quiet) ∧ sol' = sol)

theorem Idle.conforms_bind {α : Type} {m : Calls (Solution lib) α} (hm : Idle m)
    {f : α → Calls (Solution lib) Result.Status} {sol : Solution lib}
    (hf : ∀ a, (f a).Ensures sol (Conforms sol)) : (m >>= f).Ensures sol (Conforms sol) := by
  refine (hm sol).sequence ?_ ?_ ?_
  · intro tr a t h
    obtain ⟨hq, rfl⟩ := h
    exact (hf a).mono (fun _ _ _ h ↦ h.prepend (path_quiet t hq))
  · intro tr e t h
    obtain ⟨hq, rfl⟩ := h
    exact ⟨path_quiet t hq, fun _ h ↦ by cases h⟩
  · intro tr t h
    obtain ⟨hq, rfl⟩ := h
    exact ⟨path_quiet t hq, fun _ h ↦ by cases h⟩

theorem idle_clockNow : Idle (clockNow : Calls (Solution lib) Int) :=
  fun sol ↦ by simp [clockNow, Event.Quiet]

theorem idle_epollCreate1 : Idle (epollCreate1 : Calls (Solution lib) Unit) :=
  fun sol ↦ by simp [epollCreate1, Event.Quiet]

theorem idle_epollCtlAdd (fd : Fd) (ev : EpollEvent) :
    Idle (epollCtlAdd fd ev : Calls (Solution lib) Unit) :=
  fun sol ↦ by simp [epollCtlAdd, Event.Quiet]

theorem communicate_spec (sol : Solution lib) : communicate.Ensures sol (Conforms sol) := by
  simp only [communicate, ensures_get_bind, ensures_assert_bind]
  refine ⟨fun _ ↦ ?_, fun _ ↦ ⟨.nil sol, fun _ h ↦ by cases h⟩⟩
  refine idle_clockNow.conforms_bind (fun start ↦ ?_)
  refine idle_epollCreate1.conforms_bind (fun _ ↦ ?_)
  refine (idle_epollCtlAdd _ _).conforms_bind (fun _ ↦ ?_)
  refine (idle_epollCtlAdd _ _).conforms_bind (fun _ ↦ ?_)
  refine Ensures.loop (fun _ tr t ↦ Path Step sol tr t) (.nil sol) ?_ ?_
  · exact fun _ tr t hp ↦ ⟨hp, fun _ h ↦ by cases h⟩
  · intro _ tr t hp
    refine (round_spec t _).mono (fun tr' o t' h ↦ ?_)
    obtain ⟨hp', ho⟩ := h
    rcases o with (⟨⟨⟩⟩ | status) | e | _
    · exact hp.append hp'
    · refine ⟨hp.append hp', fun status' h ↦ ?_⟩
      cases h
      exact (ho status rfl).prepend tr
    · exact ⟨hp.append hp', fun _ h ↦ by cases h⟩
    · exact ⟨hp.append hp', fun _ h ↦ by cases h⟩

end Solution

end FlowctlGame
