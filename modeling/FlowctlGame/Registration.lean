import FlowctlGame.Interaction.History
import FlowctlGame.Protection

namespace FlowctlGame

open Interaction Program Unistd Broker

variable {lib : TokenizerLibrary} {process : Process} {sol : Solution lib} {e : Event}
  {past past' past'' : List Event} {fd : Fd} {fds : Finset Fd} {events : List EpollEvent}
  {ev : EpollEvent}

namespace Unistd

def Event.register (fds : Finset Fd) : Event → Finset Fd
  | .epollCtlAdd fd _ (.ok ()) => insert fd fds
  | .epollCtlDel fd (.ok ()) => fds.erase fd
  | _ => fds

/-- The descriptors that the epoll instance watches. -/
def registered (tr : List Event) : Finset Fd := tr.foldl Event.register ∅

theorem registered_snoc (tr : List Event) (e : Event) :
    registered (tr ++ [e]) = e.register (registered tr) := by
  simp [registered]

/-- The contract of epoll: what is registered can be deregistered, what is not can be
registered, and a wait reports registered descriptors, each at most once. The write end is
writable where it has neither an error nor hung up. -/
def Event.Permitted (process : Process) (past : List Event) : Event → Prop
  | .epollCtlAdd fd _ (.ok ()) => fd ∉ registered past
  | .epollCtlDel fd (.error _) => fd ∉ registered past
  | .epollWait (.ok events) => (events.map (·.fd)).Nodup ∧ ∀ ev ∈ events,
      ev.fd ∈ registered past ∧
        (ev.fd = process.inFd → (ev.EPOLLERR || ev.EPOLLHUP) = false → ev.EPOLLOUT = true)
  | _ => True

/-- Only what is registered is deregistered, which then succeeds, and written to. -/
def Event.Orderly (past : List Event) : Event → Prop
  | .epollCtlDel fd r => fd ∈ registered past ∧ r = .ok ()
  | .write fd _ _ => fd ∈ registered past
  | _ => True

/-- A wait has reported an error at `fd`, or that it hung up. -/
def HangupReported (fd : Fd) (tr : List Event) : Prop :=
  ∃ events ev, Event.epollWait (.ok events) ∈ tr ∧ ev ∈ events ∧ ev.fd = fd ∧
    (ev.EPOLLERR || ev.EPOLLHUP) = true

theorem HangupReported.mono (h : HangupReported fd past) (hsub : past ⊆ past') :
    HangupReported fd past' := by
  obtain ⟨events, ev, hmem, hev⟩ := h
  exact ⟨events, ev, hsub hmem, hev⟩

def Event.Neutral : Event → Prop
  | .epollCtlAdd _ _ _ | .epollCtlDel _ _ => False
  | _ => True

theorem registered_neutral (past : List Event) (he : e.Neutral) :
    registered (past ++ [e]) = registered past := by
  rw [registered_snoc]
  cases e <;> first | rfl | exact he.elim

theorem registered_deleted (past : List Event) (fd : Fd) :
    registered (past ++ [.epollCtlDel fd (.ok ())]) = (registered past).erase fd :=
  registered_snoc past _

/-- From `past` to `past'` no descriptor but those of `fds` was deregistered. -/
structure Spares (fds : Finset Fd) (past past' : List Event) : Prop where
  kept : ∀ fd ∈ registered past, fd ∉ fds → fd ∈ registered past'
  subset : past ⊆ past'

theorem Spares.refl (fds : Finset Fd) (past : List Event) : Spares fds past past :=
  ⟨fun _ h _ ↦ h, List.Subset.refl past⟩

theorem Spares.neutral (h : Spares fds past past') (he : e.Neutral) :
    Spares fds past (past' ++ [e]) := by
  refine ⟨fun fd hfd hno ↦ ?_, List.Subset.trans h.subset (List.subset_append_left _ _)⟩
  rw [registered_neutral past' he]
  exact h.kept fd hfd hno

theorem Spares.deleted (h : Spares fds past past') (hfd : fd ∈ fds) :
    Spares fds past (past' ++ [.epollCtlDel fd (.ok ())]) := by
  refine ⟨fun fd' hfd' hno ↦ ?_, List.Subset.trans h.subset (List.subset_append_left _ _)⟩
  rw [registered_deleted, Finset.mem_erase]
  refine ⟨?_, h.kept fd' hfd' hno⟩
  rintro rfl
  exact hno hfd

theorem Spares.mono {fds' : Finset Fd} (h : Spares fds past past') (hsub : fds ⊆ fds') :
    Spares fds' past past' :=
  ⟨fun fd hfd hno ↦ h.kept fd hfd (fun hmem ↦ hno (hsub hmem)), h.subset⟩

theorem Spares.trans (h : Spares fds past past') (h' : Spares fds past' past'') :
    Spares fds past past'' :=
  ⟨fun fd hfd hno ↦ h'.kept fd (h.kept fd hfd hno) hno, List.Subset.trans h.subset h'.subset⟩

/-- What is known of the events of a batch that are still to be handled. -/
structure Batch (process : Process) (past : List Event) (events : List EpollEvent) : Prop where
  nodup : (events.map (·.fd)).Nodup
  registered : ∀ ev ∈ events, ev.fd ∈ registered past
  reported : ∀ ev ∈ events, (ev.EPOLLERR || ev.EPOLLHUP) = true → HangupReported ev.fd past
  writable : ∀ ev ∈ events, ev.fd = process.inFd → (ev.EPOLLERR || ev.EPOLLHUP) = false →
    ev.EPOLLOUT = true

theorem batch_nil (process : Process) (past : List Event) : Batch process past [] := by
  constructor <;> simp

theorem Batch.spared (h : Batch process past events) (hspares : Spares fds past past')
    (hfds : ∀ ev ∈ events, ev.fd ∉ fds) : Batch process past' events where
  nodup := h.nodup
  registered := fun ev hmem ↦ hspares.kept _ (h.registered ev hmem) (hfds ev hmem)
  reported := fun ev hmem hup ↦ (h.reported ev hmem hup).mono hspares.subset
  writable := h.writable

theorem Batch.tail (h : Batch process past (ev :: events))
    (hspares : Spares {ev.fd} past past') : Batch process past' events := by
  have hnodup := h.nodup
  rw [List.map_cons, List.nodup_cons] at hnodup
  have hrest : Batch process past events :=
    ⟨hnodup.2, fun ev hmem ↦ h.registered ev (List.mem_cons_of_mem _ hmem),
      fun ev hmem ↦ h.reported ev (List.mem_cons_of_mem _ hmem),
      fun ev hmem ↦ h.writable ev (List.mem_cons_of_mem _ hmem)⟩
  refine hrest.spared hspares (fun ev' hmem heq ↦ hnodup.1 ?_)
  rw [← Finset.mem_singleton.mp heq]
  exact List.mem_map_of_mem hmem

theorem batch_reported (hrely : (Event.epollWait (.ok events)).Permitted process past) :
    Batch process (past ++ [.epollWait (.ok events)]) events where
  nodup := hrely.1
  registered := by
    intro ev hmem
    rw [registered_neutral (e := .epollWait (.ok events)) past trivial]
    exact (hrely.2 ev hmem).1
  reported := fun ev hmem hup ↦ ⟨events, ev, by simp, hmem, rfl, hup⟩
  writable := fun ev hmem ↦ (hrely.2 ev hmem).2

end Unistd

namespace Solution

/-- The epoll instance watches what the loop still needs it to. -/
structure Covered (process : Process) (past : List Event) (sol : Solution lib) : Prop where
  process_eq : sol.process = process
  reading : sol.tokenizerStatus = .CONTINUE → process.outFd ∈ registered past
  writing : process.inFd ∈ registered past ∨ sol.inbuf = [] ∨ HangupReported process.inFd past

theorem Covered.neutral (h : Covered process past sol) (he : e.Neutral) :
    Covered process (past ++ [e]) sol where
  process_eq := h.process_eq
  reading := by
    rw [registered_neutral past he]
    exact h.reading
  writing := by
    rw [registered_neutral past he]
    exact h.writing.imp_right (Or.imp_right (fun h ↦ h.mono (List.subset_append_left _ _)))

theorem Covered.deleted (h : Covered process past sol)
    (hread : fd = process.outFd → sol.tokenizerStatus ≠ .CONTINUE)
    (hwrite : fd = process.inFd → sol.inbuf = [] ∨ HangupReported process.inFd past) :
    Covered process (past ++ [.epollCtlDel fd (.ok ())]) sol where
  process_eq := h.process_eq
  reading := by
    intro hs
    rw [registered_deleted, Finset.mem_erase]
    exact ⟨fun heq ↦ hread heq.symm hs, h.reading hs⟩
  writing := by
    rw [registered_deleted, Finset.mem_erase]
    have hmono (h : HangupReported process.inFd past) : HangupReported process.inFd
        (past ++ [.epollCtlDel fd (.ok ())]) := h.mono (List.subset_append_left _ _)
    by_cases heq : fd = process.inFd
    · exact .inr ((hwrite heq).imp_right hmono)
    · rcases h.writing with hin | hempty | hup
      · exact .inl ⟨fun h ↦ heq h.symm, hin⟩
      · exact .inr (.inl hempty)
      · exact .inr (.inr (hmono hup))

def regime (lib : TokenizerLibrary) (process : Process) :
    Regime Event (Solution lib) Failure where
  rely := Event.Permitted process
  guarantee := Event.Orderly
  invariant := Covered process
  error failure := failure = .abort "Unexpected event." → lib.Asserts "Unexpected event."

abbrev Disciplined {α : Type} (m : Calls (Solution lib) α) (process : Process)
    (past : List Event) (sol : Solution lib) (Q : α → List Event → Solution lib → Prop) : Prop :=
  m.Keeps (regime lib process) past sol Q

theorem disciplined_throw {α : Type} {x : Exception}
    {Q : α → List Event → Solution lib → Prop} (h : Covered process past sol) :
    Disciplined (throw x) process past sol Q :=
  keeps_raise h (fun h ↦ by cases h)

theorem disciplined_clockNow (h : Covered process past sol) :
    Disciplined clockNow process past sol (fun _ past' sol' ↦
      sol' = sol ∧ Spares ∅ past past') := by
  refine keeps_ask h (fun t _ ↦ ⟨trivial, h.neutral trivial, rfl, ?_⟩)
  exact (Spares.refl ∅ past).neutral trivial

theorem disciplined_epollWait (h : Covered process past sol) :
    Disciplined epollWait process past sol (fun events past' sol' ↦
      sol' = sol ∧ Spares ∅ past past' ∧ Batch process past' events) := by
  refine keeps_ask_bind h (fun r hrely ↦ ⟨trivial, ?_⟩)
  cases r with
  | error e => exact disciplined_throw (h.neutral trivial)
  | ok events =>
    exact keeps_pure (h.neutral trivial)
      ⟨rfl, (Spares.refl ∅ past).neutral trivial, batch_reported hrely⟩

theorem disciplined_epollCtlDel (h : Covered process past sol) (hfd : fd ∈ registered past)
    (hread : fd = process.outFd → sol.tokenizerStatus ≠ .CONTINUE)
    (hwrite : fd = process.inFd → sol.inbuf = [] ∨ HangupReported process.inFd past) :
    Disciplined (epollCtlDel fd) process past sol (fun _ past' _ ↦ Spares {fd} past past') := by
  refine keeps_ask_bind h (fun r hrely ↦ ?_)
  cases r with
  | error e => exact absurd hfd hrely
  | ok u =>
    refine ⟨⟨hfd, rfl⟩, keeps_pure (h.deleted hread hwrite) ?_⟩
    exact (Spares.refl {fd} past).deleted (Finset.mem_singleton_self fd)

theorem disciplined_poll (untilPoint start : Int) (h : Covered process past sol) :
    Disciplined (poll untilPoint ([], start)) process past sol (fun r past' sol' ↦
      sol' = sol ∧ Batch process past' r.1) := by
  refine Keeps.loop (fun b past' sol' ↦ sol' = sol ∧ Batch process past' b.1) h
    ⟨rfl, batch_nil process past⟩ ?_
  intro b past' sol' hcov hJ
  obtain ⟨events, now⟩ := b
  obtain ⟨rfl, hbatch⟩ := hJ
  dsimp only
  split
  · refine (disciplined_epollWait hcov).bind (fun events' past₁ sol₁ hcov₁ hQ ↦ ?_)
    obtain ⟨rfl, -, hbatch'⟩ := hQ
    refine (disciplined_clockNow hcov₁).bind (fun t past₂ sol₂ hcov₂ hQ ↦ ?_)
    obtain ⟨rfl, hspares⟩ := hQ
    exact keeps_pure hcov₂ ⟨rfl, hbatch'.spared hspares (by simp)⟩
  · exact keeps_pure hcov ⟨rfl, hbatch⟩

theorem disciplined_writeLoop (h : Covered process past sol)
    (hfd : process.inFd ∈ registered past) :
    Disciplined writeLoop process past sol (fun _ past' _ ↦ Spares ∅ past past') := by
  refine Keeps.loop (fun _ past' _ ↦ Spares ∅ past past') h (Spares.refl ∅ past) ?_
  intro _ past' sol' hcov hspares
  have hin : process.inFd ∈ registered past' := hspares.kept _ hfd (Finset.notMem_empty _)
  refine keeps_get_bind ?_
  split
  · exact keeps_pure hcov hspares
  · refine keeps_ask_bind hcov (fun r _ ↦ ⟨?_, ?_⟩)
    · rw [hcov.process_eq]
      exact hin
    · have hneutral :
          (Event.write sol'.process.inFd (sol'.inbuf.take BUFSIZ) r).Neutral := trivial
      have hcov' := hcov.neutral hneutral
      have hspares' := hspares.neutral hneutral
      rcases r with (_ | _ | e) | size
      · exact keeps_pure hcov' hspares'
      · exact disciplined_throw hcov'
      · exact disciplined_throw hcov'
      · refine keeps_modify_bind (keeps_pure ⟨hcov'.process_eq, hcov'.reading, .inl ?_⟩ hspares')
        rwa [registered_neutral past' hneutral]

theorem disciplined_handleWriteEnd (h : Covered process past sol)
    (hne : process.inFd ≠ process.outFd) (hfd : ev.fd = process.inFd)
    (hbatch : Batch process past (ev :: events)) :
    Disciplined (handleWriteEnd ev) process past sol (fun _ past' _ ↦
      Spares {ev.fd} past past') := by
  have hmem : ev ∈ ev :: events := List.mem_cons_self ..
  have hin : process.inFd ∈ registered past := hfd ▸ hbatch.registered ev hmem
  refine keeps_get_bind ?_
  rw [h.process_eq, hfd]
  split
  · rename_i hup
    exact disciplined_epollCtlDel h hin (fun heq ↦ absurd heq hne)
      (fun _ ↦ .inr (hfd ▸ hbatch.reported ev hmem hup))
  · rename_i hup
    have hout := hbatch.writable ev hmem hfd (by simpa using hup)
    simp only [assert, hout, if_true, pure_bind]
    split
    · exact keeps_pure h (Spares.refl _ past)
    · refine (disciplined_writeLoop h hin).bind (fun _ past' sol' hcov hspares ↦ ?_)
      refine keeps_get_bind ?_
      have hspares' : Spares {process.inFd} past past' := hspares.mono (Finset.empty_subset _)
      split
      · rename_i hempty
        rw [hcov.process_eq]
        refine (disciplined_epollCtlDel hcov (hspares.kept _ hin (Finset.notMem_empty _))
          (fun heq ↦ absurd heq hne) (fun _ ↦ .inl hempty)).mono ?_
        exact fun _ _ _ _ hdeleted ↦ hspares'.trans hdeleted
      · exact keeps_pure hcov hspares'

theorem Covered.recast {sol' : Solution lib} (h : Covered process past sol)
    (hprocess : sol'.process = sol.process) (hin : sol'.inbuf = sol.inbuf)
    (hs : sol'.tokenizerStatus = .CONTINUE → sol.tokenizerStatus = .CONTINUE) :
    Covered process past sol' where
  process_eq := hprocess.trans h.process_eq
  reading := fun hs' ↦ h.reading (hs hs')
  writing := by
    rw [hin]
    exact h.writing

theorem disciplined_callTokenizer (h : Covered process past sol) (data : Bytes) :
    Disciplined (callTokenizer data) process past sol (fun _ past' sol' ↦
      past' = past ∧ sol'.tokenizerStatus = sol.tokenizerStatus) := by
  refine keeps_get_bind ?_
  cases sol.tokenizer with
  | none => exact keeps_raise h (fun h ↦ absurd h (by decide))
  | some tokenizer =>
    dsimp only
    cases hcall : lib.call tokenizer data with
    | error msg =>
      refine keeps_raise h (fun heq ↦ ?_)
      cases heq
      exact TokenizerLibrary.asserts_of_call hcall
    | ok r => exact keeps_modify_bind (keeps_pure (h.recast rfl rfl id) ⟨rfl, rfl⟩)

theorem disciplined_handleChunk (h : Covered process past sol)
    (hne : process.inFd ≠ process.outFd) (hs : sol.tokenizerStatus = .CONTINUE) (buf : Bytes) :
    Disciplined (handleChunk buf) process past sol (fun _ past' _ ↦
      Spares {process.outFd} past past') := by
  refine (disciplined_callTokenizer h buf).bind (fun r past' sol' hcov hQ ↦ ?_)
  obtain ⟨rfl, hs'⟩ := hQ
  rw [hs] at hs'
  refine keeps_modify_bind ?_
  have hcov' : Covered process past' { sol' with tokenizerStatus := r.status } :=
    hcov.recast rfl rfl (fun _ ↦ hs')
  cases hr : r.status with
  | FAIL =>
    refine keeps_get_bind ?_
    have hout : sol'.process.outFd = process.outFd := congrArg Process.outFd hcov.process_eq
    dsimp only
    rw [hr] at hcov'
    rw [hout]
    exact disciplined_epollCtlDel hcov' (h.reading hs) (fun _ h ↦ by cases h)
      (fun heq ↦ absurd heq.symm hne)
  | CONTINUE =>
    rw [hr] at hcov'
    exact keeps_modify (hcov'.recast rfl rfl id) (Spares.refl _ _)
  | ACCEPTED =>
    rw [hr] at hcov'
    exact keeps_modify (hcov'.recast rfl rfl id) (Spares.refl _ _)

theorem disciplined_readLoop (h : Covered process past sol)
    (hne : process.inFd ≠ process.outFd) :
    Disciplined readLoop process past sol (fun _ past' _ ↦
      Spares {process.outFd} past past') := by
  refine Keeps.loop (fun _ past' _ ↦ Spares {process.outFd} past past') h (Spares.refl _ past) ?_
  intro _ past' sol' hcov hspares
  refine keeps_get_bind ?_
  split
  · exact keeps_pure hcov hspares
  · rename_i hs
    refine keeps_ask_bind hcov (fun r _ ↦ ⟨trivial, ?_⟩)
    have hneutral : (Event.read sol'.process.outFd r).Neutral := trivial
    have hcov' := hcov.neutral hneutral
    have hspares' := hspares.neutral hneutral
    rcases r with (_ | _ | e) | _ | ⟨x, buf⟩
    · exact keeps_pure hcov' hspares'
    · exact disciplined_throw hcov'
    · exact disciplined_throw hcov'
    · exact keeps_pure hcov' hspares'
    · refine (disciplined_handleChunk hcov' hne (by simpa using hs) _).bind ?_
      exact fun _ _ _ hcov'' hchunk ↦ keeps_pure hcov'' (hspares'.trans hchunk)

theorem disciplined_handleReadEnd (h : Covered process past sol)
    (hne : process.inFd ≠ process.outFd) (ev : EpollEvent) :
    Disciplined (handleReadEnd ev) process past sol (fun _ past' _ ↦
      Spares {process.outFd} past past') := by
  rw [handleReadEnd_eq]
  split
  · exact keeps_pure h (Spares.refl _ past)
  · refine (disciplined_readLoop h hne).bind ?_
    exact fun _ _ _ hcov hspares ↦ keeps_pure hcov hspares

theorem disciplined_handleEvents (h : Covered process past sol)
    (hne : process.inFd ≠ process.outFd) (hbatch : Batch process past events) :
    Disciplined (handleEvents events) process past sol (fun _ _ _ ↦ True) := by
  induction events generalizing past sol with
  | nil => exact keeps_pure h trivial
  | cons ev events ih =>
    refine keeps_get_bind ?_
    rw [h.process_eq]
    split
    · rename_i hfd
      refine (disciplined_handleWriteEnd h hne hfd hbatch).bind ?_
      exact fun _ past' sol' hcov hspares ↦ ih hcov (hbatch.tail hspares)
    · split
      · rename_i hfd
        refine (disciplined_handleReadEnd h hne ev).bind (fun o past' sol' hcov hspares ↦ ?_)
        rw [← hfd] at hspares
        cases o with
        | none => exact ih hcov (hbatch.tail hspares)
        | some status => exact keeps_pure hcov trivial
      · exact ih h (hbatch.tail (Spares.refl _ past))

theorem disciplined_round (h : Covered process past sol)
    (hne : process.inFd ≠ process.outFd) (untilPoint : Int) (u : Unit) :
    Disciplined (round untilPoint u) process past sol (fun _ _ _ ↦ True) := by
  refine keeps_get_bind ?_
  split
  · exact keeps_pure h trivial
  · refine (disciplined_clockNow h).bind (fun now past₁ sol₁ hcov₁ _ ↦ ?_)
    refine (disciplined_poll untilPoint now hcov₁).bind (fun polled past₂ sol₂ hcov₂ hQ ↦ ?_)
    obtain ⟨events, now'⟩ := polled
    dsimp only
    split
    · exact keeps_pure hcov₂ trivial
    · refine (disciplined_handleEvents hcov₂ hne hQ.2).bind (fun o past₃ sol₃ hcov₃ _ ↦ ?_)
      cases o with
      | none => exact keeps_pure hcov₃ trivial
      | some status => exact keeps_pure hcov₃ trivial

/-- Of the descriptors that were registered, those still needed are watched. -/
structure Entered (process : Process) (past : List Event) (sol : Solution lib) : Prop where
  reading : (∃ ev, .epollCtlAdd process.outFd ev (.ok ()) ∈ past) →
    sol.tokenizerStatus = .CONTINUE → process.outFd ∈ registered past
  writing : (∃ ev, .epollCtlAdd process.inFd ev (.ok ()) ∈ past) →
    process.inFd ∈ registered past ∨ sol.inbuf = [] ∨ HangupReported process.inFd past

theorem Covered.entered (h : Covered process past sol) : Entered process past sol :=
  ⟨fun _ ↦ h.reading, fun _ ↦ h.writing⟩

theorem entered_of_none (h : ∀ fd ev, .epollCtlAdd fd ev (.ok ()) ∉ past) :
    Entered process past sol :=
  ⟨fun hx ↦ absurd hx.choose_spec (h _ _), fun hx ↦ absurd hx.choose_spec (h _ _)⟩

theorem entered_of_first (hadded : ∀ fd ev, .epollCtlAdd fd ev (.ok ()) ∈ past → fd = process.inFd)
    (hin : process.inFd ∈ registered past) : Entered process past sol where
  reading := by
    intro hx _
    obtain ⟨ev, hmem⟩ := hx
    rw [hadded _ _ hmem]
    exact hin
  writing := fun _ ↦ .inl hin

def entry (lib : TokenizerLibrary) (process : Process) :
    Regime Event (Solution lib) Failure :=
  { regime lib process with invariant := Entered process }

theorem keeps_checked_bind {α β : Type} {call : String} {r : Except Errno α}
    {f : α → Calls (Solution lib) β} {Q : β → List Event → Solution lib → Prop}
    (herror : ∀ e, r = .error e → Entered process past sol)
    (h : ∀ a, r = .ok a → (f a).Keeps (entry lib process) past sol Q) :
    (checked call r >>= f).Keeps (entry lib process) past sol Q := by
  cases r with
  | error e => exact keeps_raise (herror e rfl) (fun h ↦ by cases h)
  | ok a => exact h a rfl

theorem keeps_rounds (hcov : Covered process past sol) (hne : process.inFd ≠ process.outFd)
    (untilPoint : Int) :
    (Program.loop (round untilPoint) ()).Keeps (entry lib process) past sol (fun _ _ _ ↦ True) := by
  have hloop : Disciplined (Program.loop (round untilPoint) ()) process past sol
      (fun _ _ _ ↦ True) := by
    refine Keeps.loop (fun _ _ _ ↦ True) hcov trivial (fun u past' sol' hcov' _ ↦ ?_)
    refine (disciplined_round hcov' hne untilPoint u).mono (fun r _ _ _ _ ↦ ?_)
    cases r <;> trivial
  exact hloop.weaken (fun _ _ h ↦ h) (fun _ _ h ↦ h) (fun _ _ h ↦ h.entered) (fun _ h ↦ h)

/-- Both descriptors are registered; where they are one, epoll refuses the second time. -/
theorem keeps_registration (hempty : registered past = ∅)
    (hnone : ∀ fd ev, .epollCtlAdd fd ev (.ok ()) ∉ past) (untilPoint : Int) :
    (do
      epollCtlAdd sol.process.inFd { fd := sol.process.inFd, EPOLLOUT := true }
      epollCtlAdd sol.process.outFd { fd := sol.process.outFd, EPOLLIN := true }
      Program.loop (round untilPoint) () : Calls (Solution lib) Result.Status).Keeps
        (entry lib sol.process) past sol (fun _ _ _ ↦ True) := by
  simp only [epollCtlAdd, bind_assoc]
  generalize ({ fd := sol.process.inFd, EPOLLOUT := true } : EpollEvent) = evIn
  generalize ({ fd := sol.process.outFd, EPOLLIN := true } : EpollEvent) = evOut
  refine keeps_ask_bind (entered_of_none hnone) (fun r _ ↦ ⟨trivial, ?_⟩)
  refine keeps_checked_bind (fun e he ↦ entered_of_none (by simp [he, hnone])) (fun _ hr ↦ ?_)
  subst hr
  generalize hpast : past ++ [Event.epollCtlAdd sol.process.inFd evIn (.ok ())] = past₁
  have hregistered : registered past₁ = {sol.process.inFd} := by
    rw [← hpast, registered_snoc, hempty]
    rfl
  have hadded : ∀ fd ev, .epollCtlAdd fd ev (.ok ()) ∈ past₁ → fd = sol.process.inFd := by
    rw [← hpast]
    intro fd ev hmem
    rcases List.mem_append.mp hmem with hmem | hmem
    · exact absurd hmem (hnone fd ev)
    · cases List.mem_singleton.mp hmem
      rfl
  have hin : sol.process.inFd ∈ registered past₁ := by
    rw [hregistered]
    exact Finset.mem_singleton_self _
  refine keeps_ask_bind (entered_of_first hadded hin) (fun r hrely ↦ ⟨trivial, ?_⟩)
  refine keeps_checked_bind (fun e he ↦ entered_of_first ?_ ?_) (fun _ hr ↦ ?_)
  · simpa [he] using hadded
  · rw [registered_snoc, he]
    exact hin
  · subst hr
    have hout : sol.process.outFd ∉ registered past₁ := hrely
    rw [hregistered, Finset.mem_singleton] at hout
    have hboth : registered (past₁ ++ [.epollCtlAdd sol.process.outFd evOut (.ok ())]) =
        {sol.process.outFd, sol.process.inFd} := by
      rw [registered_snoc, hregistered]
      rfl
    refine keeps_rounds ⟨rfl, ?_, ?_⟩ (Ne.symm hout) untilPoint
    · simp [hboth]
    · simp [hboth]

theorem keeps_communicate (sol : Solution lib) :
    communicate.Keeps (entry lib sol.process) [] sol (fun _ _ _ ↦ True) := by
  refine keeps_get_bind ?_
  unfold assert
  split
  · rw [pure_bind]
    refine keeps_ask_bind (entered_of_none (by simp)) (fun start _ ↦ ⟨trivial, ?_⟩)
    simp only [epollCreate1, bind_assoc]
    refine keeps_ask_bind (entered_of_none (by simp)) (fun r _ ↦ ⟨trivial, ?_⟩)
    refine keeps_checked_bind (fun _ _ ↦ entered_of_none (by simp)) (fun _ _ ↦ ?_)
    exact keeps_registration rfl (by simp) _
  · exact keeps_raise (entered_of_none (by simp)) (fun h ↦ absurd h (by decide))

/-- At any moment of any run of `communicate` over an epoll that keeps its contract: what is
deregistered was registered, what is written to still is, the two ends are watched as long as
they are needed, and the assertions about unexpected events hold. -/
structure WellWatched (sol : Solution lib) (tr : List Event)
    (o : Outcome Failure Result.Status) (sol' : Solution lib) : Prop where
  deregistered : ∀ before fd r after, tr = before ++ .epollCtlDel fd r :: after →
    fd ∈ registered before ∧ r = .ok ()
  written : ∀ before fd data r after, tr = before ++ .write fd data r :: after →
    fd ∈ registered before
  reading : (∃ ev, .epollCtlAdd sol.process.outFd ev (.ok ()) ∈ tr) →
    sol'.tokenizerStatus = .CONTINUE → sol.process.outFd ∈ registered tr
  writing : (∃ ev, .epollCtlAdd sol.process.inFd ev (.ok ()) ∈ tr) →
    sol.process.inFd ∈ registered tr ∨ sol'.inbuf = [] ∨ HangupReported sol.process.inFd tr
  expected : o = .raised (.abort "Unexpected event.") → lib.Asserts "Unexpected event."

theorem registration_disciplined {tr : List Event} {o : Outcome Failure Result.Status}
    {sol' : Solution lib} (h : communicate.Executes sol tr o sol')
    (hepoll : ∀ before e after, tr = before ++ e :: after → e.Permitted sol.process before) :
    WellWatched sol tr o sol' := by
  have hrely : Throughout (entry lib sol.process).rely [] tr := throughout_iff.mpr hepoll
  obtain ⟨hguarantee, hentered, ho⟩ := keeps_communicate sol tr o sol' h hrely
  have horderly := throughout_iff.mp hguarantee
  exact {
    deregistered := fun before fd r after heq ↦ horderly before _ after heq
    written := fun before fd data r after heq ↦ horderly before _ after heq
    reading := hentered.reading
    writing := hentered.writing
    expected := by
      rintro rfl
      exact ho rfl }

def waitingForLine : Solution SplitChar.library :=
  { process := ⟨4, 5, 10⟩, tokenizer := some ⟨10⟩, inbuf := [120] }

/-- Both ends are reported at once; the input is drained before the line is read. -/
def watchedRun : Execution Event (Solution SplitChar.library) Failure Result.Status :=
  communicate.run waitingForLine (List.replicate 10
    { epollWait := .ok [{ fd := 4, EPOLLOUT := true }, { fd := 5, EPOLLIN := true }],
      write := .ok 0, read := .ok [97, 10] })

theorem watchedRun_trace : watchedRun.trace =
    [.now 0, .epollCreate1 (.ok ()), .epollCtlAdd 4 { fd := 4, EPOLLOUT := true } (.ok ()),
      .epollCtlAdd 5 { fd := 5, EPOLLIN := true } (.ok ()), .now 0,
      .epollWait (.ok [{ fd := 4, EPOLLOUT := true }, { fd := 5, EPOLLIN := true }]), .now 0,
      .write 4 [120] (.ok 1), .epollCtlDel 4 (.ok ()), .read 5 (.ok [97, 10])] := rfl

theorem registration_disciplined_drained :
    WellWatched waitingForLine watchedRun.trace (.returned .OK) watchedRun.state := by
  have hrun : communicate.Executes waitingForLine watchedRun.trace (.returned .OK)
      watchedRun.state := executes_run _ _ _
  have hepoll : Throughout (Event.Permitted ⟨4, 5, 10⟩) [] watchedRun.trace := by
    rw [watchedRun_trace]
    simp [Throughout, Event.Permitted, registered, Event.register]
  exact registration_disciplined hrun (throughout_iff.mp hepoll)

end Solution

end FlowctlGame
