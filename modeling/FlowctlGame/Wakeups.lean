import FlowctlGame.Registration
import FlowctlGame.Silence

namespace FlowctlGame

open Interaction Program Unistd Broker

variable {lib : TokenizerLibrary} {process : Process} {sol : Solution lib} {e : Event}
  {past past' tr : List Event} {fd : Fd} {events : List EpollEvent} {ev : EpollEvent}
  {bit : EpollEvent → Bool}

namespace Unistd

def Event.writes : Event → Bool
  | .write _ _ (.ok _) => true
  | _ => false

def Event.reads : Event → Bool
  | .read _ (.ok (_ :: _)) => true
  | _ => false

def Event.drops : Event → Bool
  | .epollCtlDel _ (.ok ()) => true
  | _ => false

/-- The call moves a byte, or drops a descriptor that needs no more attention. -/
def Event.productive (e : Event) : Bool := e.writes || e.reads || e.drops

def Event.wakes : Event → Bool
  | .epollWait (.ok (_ :: _)) => true
  | _ => false

/-- Whether a wait has reported something and nothing productive was done since. -/
def Event.owes (owing : Bool) (e : Event) : Bool :=
  if e.waits then e.wakes else owing && !e.productive

def owing (tr : List Event) : Bool := tr.foldl Event.owes false

theorem owing_snoc (tr : List Event) (e : Event) : owing (tr ++ [e]) = e.owes (owing tr) := by
  simp [owing]

theorem owes_of_not_waits (he : e.waits = false) : e.owes false = false := by
  simp [Event.owes, he]

/-- Whether the last wait reported `fd` with `bit` and nothing was transferred on it since. -/
def Event.readies (bit : EpollEvent → Bool) (fd : Fd) (ready : Bool) : Event → Bool
  | .epollWait (.ok events) => events.any (fun ev ↦ decide (ev.fd = fd) && bit ev)
  | .read fd' _ | .write fd' _ _ => !decide (fd' = fd) && ready
  | _ => ready

def ready (bit : EpollEvent → Bool) (fd : Fd) (tr : List Event) : Bool :=
  tr.foldl (Event.readies bit fd) false

theorem ready_snoc (tr : List Event) (e : Event) :
    ready bit fd (tr ++ [e]) = e.readies bit fd (ready bit fd tr) := by
  simp [ready]

theorem ready_reported (bit : EpollEvent → Bool) (hmem : ev ∈ events) (hbit : bit ev = true)
    (tr : List Event) : ready bit ev.fd (tr ++ [.epollWait (.ok events)]) = true := by
  rw [ready_snoc]
  exact List.any_eq_true.mpr ⟨ev, hmem, by simp [hbit]⟩

/-- No wait is made as long as something is owed. -/
def Event.Awake (past : List Event) (e : Event) : Prop := e.waits = true → owing past = false

theorem productive_before_wait {mid after : List Event} {r : Except Errno (List EpollEvent)}
    (h : owing past = true) (hawake : Throughout Event.Awake past (mid ++ .epollWait r :: after)) :
    ∃ e ∈ mid, e.productive = true := by
  induction mid generalizing past with
  | nil =>
    have hnot := hawake.1 rfl
    rw [h] at hnot
    cases hnot
  | cons e mid ih =>
    cases he : e.productive with
    | true => exact ⟨e, List.mem_cons_self .., he⟩
    | false =>
      have hwaits : e.waits = false := by
        by_contra hw
        have hnot := hawake.1 (by simpa using hw)
        rw [h] at hnot
        cases hnot
      have howing : owing (past ++ [e]) = true := by
        rw [owing_snoc, h]
        simp [Event.owes, hwaits, he]
      obtain ⟨e', hmem, hproductive⟩ := ih howing hawake.2
      exact ⟨e', List.mem_cons_of_mem e hmem, hproductive⟩

theorem wakes_le_productive (h : Throughout Event.Awake [] tr) :
    tr.countP Event.wakes ≤ tr.countP Event.productive + (owing tr).toNat := by
  induction tr using List.reverseRecOn with
  | nil => simp
  | append_singleton tr e ih =>
    obtain ⟨hbefore, hlast⟩ := (throughout_append [] tr [e]).mp h
    have hle := ih hbefore
    rw [List.countP_append, List.countP_append, List.countP_singleton, List.countP_singleton,
      owing_snoc, Event.owes]
    cases hw : e.waits with
    | true =>
      have howing : owing tr = false := hlast.1 hw
      rw [howing, Bool.toNat_false] at hle
      cases e.wakes <;> simp <;> omega
    | false =>
      have hquiet : e.wakes = false := by cases e <;> first | rfl | cases hw
      have hbool := Bool.toNat_le (owing tr)
      cases hp : e.productive <;> simp [hquiet] <;> omega

/-- A descriptor that was reported ready is ready: the transfer that it was reported for does
something. The descriptors that are reported are the two of `process`. -/
def Event.Prompt (process : Process) (past : List Event) : Event → Prop
  | .write fd _ (.error .EAGAIN) => ready (·.EPOLLOUT) fd past = false
  | .read fd (.error .EAGAIN) | .read fd (.ok []) => ready (·.EPOLLIN) fd past = false
  | .epollWait (.ok events) => ∀ ev ∈ events, ev.fd = process.inFd ∨ ev.fd = process.outFd
  | _ => True

def LastIsWait (tr : List Event) : Prop := ∃ r, tr.getLast? = some (.epollWait r)

theorem lastIsWait_snoc : LastIsWait (past ++ [e]) ↔ ∃ r, e = .epollWait r := by
  simp [LastIsWait]

theorem not_lastIsWait_snoc (he : e.waits = false) : ¬ LastIsWait (past ++ [e]) := by
  rw [lastIsWait_snoc]
  rintro ⟨r, rfl⟩
  cases he

structure Settled (tr : List Event) : Prop where
  owing : owing tr = false
  notLast : ¬ LastIsWait tr

theorem Settled.snoc (h : Settled past) (he : e.waits = false) : Settled (past ++ [e]) := by
  refine ⟨?_, not_lastIsWait_snoc he⟩
  rw [owing_snoc, h.owing]
  exact owes_of_not_waits he

theorem Settled.append (h : Settled past) (htr : ∀ e ∈ tr, e.waits = false) :
    Settled (past ++ tr) := by
  induction tr generalizing past with
  | nil => rwa [List.append_nil]
  | cons e tr ih =>
    obtain ⟨he, hrest⟩ := List.forall_mem_cons.mp htr
    rw [List.append_cons]
    exact ih (h.snoc he) hrest

theorem settled_productive (he : e.productive = true) (past : List Event) :
    Settled (past ++ [e]) := by
  have hwaits : e.waits = false := by cases e <;> first | rfl | cases he
  refine ⟨?_, not_lastIsWait_snoc hwaits⟩
  rw [owing_snoc]
  simp [Event.owes, hwaits, he]

/-- What is known of events that a wait has just reported. -/
structure Fresh (process : Process) (past : List Event) (events : List EpollEvent) : Prop where
  either : ∀ ev ∈ events, ev.fd = process.inFd ∨ ev.fd = process.outFd
  writable : ∀ ev ∈ events, ev.EPOLLOUT = true → ready (·.EPOLLOUT) ev.fd past = true
  readable : ∀ ev ∈ events, ev.EPOLLIN = true → ready (·.EPOLLIN) ev.fd past = true

theorem fresh_reported (h : (Event.epollWait (.ok events)).Prompt process past) :
    Fresh process (past ++ [.epollWait (.ok events)]) events where
  either := h
  writable := fun _ hmem hbit ↦ ready_reported (·.EPOLLOUT) hmem hbit past
  readable := fun _ hmem hbit ↦ ready_reported (·.EPOLLIN) hmem hbit past

theorem Fresh.clock (h : Fresh process past events) (t : Int) :
    Fresh process (past ++ [.now t]) events where
  either := h.either
  writable := fun ev hmem hbit ↦ (ready_snoc _ _).trans (h.writable ev hmem hbit)
  readable := fun ev hmem hbit ↦ (ready_snoc _ _).trans (h.readable ev hmem hbit)

end Unistd

namespace Solution

/-- `communicate` waits only if it has done something about what the last wait reported. -/
def alert (lib : TokenizerLibrary) (process : Process) : Regime Event (Solution lib) Failure where
  rely := Event.Prompt process
  guarantee := Event.Awake
  invariant past sol := sol.process = process ∧
    (LastIsWait past → sol.tokenizerStatus = .CONTINUE)
  error _ := True

abbrev Alert {α : Type} (m : Calls (Solution lib) α) (process : Process) (past : List Event)
    (sol : Solution lib) (Q : α → List Event → Solution lib → Prop) : Prop :=
  m.Keeps (alert lib process) past sol Q

def handling (lib : TokenizerLibrary) (process : Process) :
    Contract Event (Solution lib) Failure where
  invariant sol := sol.process = process
  allowed e := e.waits = false
  fatal _ := False
  error _ := True

theorem handling_handling : Handling (handling lib process) where
  deregisters _ _ := rfl
  writes _ _ _ _ := rfl
  reads _ _ _ := rfl
  drained _ h _ := h
  absorbed sol h _ buf _ := (absorb_process sol buf).trans h
  chokes _ _ _ _ _ _ _ := trivial
  unexpected := trivial
  throws _ := trivial

/-- Once something was done about the last wait, whatever else is done is right. -/
theorem alert_settled {α : Type} {m : Calls (Solution lib) α} (hpast : Settled past)
    (h : m.Ensures sol (fun tr _ sol' ↦ sol'.process = process ∧ ∀ e ∈ tr, e.waits = false)) :
    Alert m process past sol (fun _ past' _ ↦ Settled past') := by
  refine h.mono (fun tr o sol' hm _ ↦ ?_)
  obtain ⟨hprocess, htr⟩ := hm
  have hsettled := hpast.append htr
  refine ⟨?_, ⟨hprocess, fun hwait ↦ absurd hwait hsettled.notLast⟩, ?_⟩
  · refine throughout_iff.mpr (fun before e after heq hwaits ↦ ?_)
    rw [htr e (by simp [heq])] at hwaits
    cases hwaits
  · cases o with
    | returned a => exact hsettled
    | raised err => trivial
    | pending => trivial

theorem alert_handling {α : Type} {m : Calls (Solution lib) α} (h : m.Meets (handling lib process))
    (hprocess : sol.process = process) (hpast : Settled past) :
    Alert m process past sol (fun _ past' _ ↦ Settled past') :=
  alert_settled hpast ((h sol hprocess).mono (fun _ _ _ hm ↦ ⟨hm.1, hm.2.1⟩))

theorem alert_neutral (h : (alert lib process).invariant past sol) (hwaits : e.waits = false) :
    (alert lib process).invariant (past ++ [e]) sol :=
  ⟨h.1, fun hwait ↦ absurd hwait (not_lastIsWait_snoc hwaits)⟩

theorem alert_ask_bind {α β : Type} {reply : Answer → α} {event : α → Event}
    {f : α → Calls (Solution lib) β} {Q : β → List Event → Solution lib → Prop}
    (h : (alert lib process).invariant past sol) (hwaits : ∀ a, (event a).waits = false)
    (hf : ∀ a, (event a).Prompt process past →
      (alert lib process).invariant (past ++ [event a]) sol →
        Alert (f a) process (past ++ [event a]) sol Q) :
    Alert (ask reply event >>= f) process past sol Q := by
  refine keeps_ask_bind h (fun a hrely ↦ ⟨fun hw ↦ ?_, hf a hrely (alert_neutral h (hwaits a))⟩)
  rw [hwaits a] at hw
  cases hw

theorem alert_epollCtlDel (h : (alert lib process).invariant past sol) (fd : Fd) :
    Alert (epollCtlDel fd) process past sol (fun _ past' _ ↦ Settled past') := by
  refine alert_ask_bind h (fun _ ↦ rfl) (fun r _ hI ↦ ?_)
  cases r with
  | error e => exact keeps_raise hI trivial
  | ok u => exact keeps_pure hI (settled_productive (e := .epollCtlDel fd (.ok ())) rfl past)

theorem alert_writeLoop (h : (alert lib process).invariant past sol)
    (hready : ready (·.EPOLLOUT) process.inFd past = true) :
    Alert writeLoop process past sol (fun _ past' sol' ↦ sol'.inbuf = [] ∨ Settled past') := by
  refine Keeps.loop (fun _ past' _ ↦ past' = past ∨ Settled past') h (.inl rfl) ?_
  intro _ past' sol' hI hJ
  refine keeps_get_bind ?_
  split
  · rename_i hempty
    exact keeps_pure hI (.inl hempty)
  · refine alert_ask_bind hI (fun _ ↦ rfl) (fun r hrely hI' ↦ ?_)
    rcases r with (_ | _ | e) | size
    · refine keeps_pure hI' (.inr ?_)
      rcases hJ with rfl | hsettled
      · -- the first attempt to write is answered
        have hidle : ready (·.EPOLLOUT) sol'.process.inFd past' = false := hrely
        rw [hI.1, hready] at hidle
        cases hidle
      · exact hsettled.snoc rfl
    · exact keeps_raise hI' trivial
    · exact keeps_raise hI' trivial
    · refine keeps_modify_bind (keeps_pure hI' (.inr ?_))
      exact settled_productive (e := .write _ _ (.ok size)) rfl past'

/-- The first event of a batch at the write end: something is written, or the descriptor is
dropped. -/
theorem alert_handleWriteEnd (h : (alert lib process).invariant past sol)
    (hs : sol.tokenizerStatus = .CONTINUE)
    (hready : ev.EPOLLOUT = true → ready (·.EPOLLOUT) process.inFd past = true) :
    Alert (handleWriteEnd ev) process past sol (fun _ past' _ ↦ Settled past') := by
  refine keeps_get_bind ?_
  split
  · exact alert_epollCtlDel h _
  · cases hout : ev.EPOLLOUT with
    | false => exact keeps_raise h trivial
    | true =>
      simp only [assert, hs, if_true, pure_bind, ne_eq, not_true_eq_false, if_false]
      refine (alert_writeLoop h (hready hout)).bind (fun _ past' sol' hI hQ ↦ keeps_get_bind ?_)
      split
      · exact alert_epollCtlDel hI _
      · rename_i hrest
        exact keeps_pure hI (hQ.resolve_left hrest)

theorem alert_readLoop (h : (alert lib process).invariant past sol)
    (hs : sol.tokenizerStatus = .CONTINUE)
    (hready : ready (·.EPOLLIN) process.outFd past = true) :
    Alert readLoop process past sol (fun _ past' _ ↦ Settled past') := by
  refine Keeps.loop (fun _ past' sol' ↦ past' = past ∧ sol'.tokenizerStatus = .CONTINUE ∨
    Settled past') h (.inl ⟨rfl, hs⟩) ?_
  intro _ past' sol' hI hJ
  refine keeps_get_bind ?_
  split
  · rename_i hdone
    refine keeps_pure hI (hJ.resolve_left (fun hfirst ↦ ?_))
    exact hdone hfirst.2
  · rename_i hs'
    refine alert_ask_bind hI (fun _ ↦ rfl) (fun r hrely hI' ↦ ?_)
    -- nothing is read only if something was read before
    have hidle : ready (·.EPOLLIN) sol'.process.outFd past' = false →
        Settled (past' ++ [.read sol'.process.outFd r]) := by
      intro hno
      rcases hJ with ⟨rfl, -⟩ | hsettled
      · rw [hI.1, hready] at hno
        cases hno
      · exact hsettled.snoc rfl
    rcases r with (_ | _ | e) | _ | ⟨c, buf⟩
    · exact keeps_pure hI' (hidle hrely)
    · exact keeps_raise hI' trivial
    · exact keeps_raise hI' trivial
    · exact keeps_pure hI' (hidle hrely)
    · have hchunk : Alert (handleChunk (c :: buf)) process
          (past' ++ [.read sol'.process.outFd (.ok (c :: buf))]) sol'
            (fun _ past'' _ ↦ Settled past'') := by
        refine alert_settled (settled_productive (e := .read _ (.ok (c :: buf))) rfl past') ?_
        refine (handling_handling.handleChunk_ensures hI.1 (by simpa using hs')
          (List.cons_ne_nil c buf)).mono ?_
        exact fun _ _ _ hm ↦ ⟨hm.1, hm.2.1⟩
      refine hchunk.bind (fun _ _ _ hI'' hsettled ↦ ?_)
      exact keeps_pure hI'' (.inr hsettled)

theorem alert_handleReadEnd (h : (alert lib process).invariant past sol)
    (hs : sol.tokenizerStatus = .CONTINUE)
    (hready : ev.EPOLLIN = true → ready (·.EPOLLIN) process.outFd past = true) :
    Alert (handleReadEnd ev) process past sol (fun o past' _ ↦ o = none → Settled past') := by
  rw [handleReadEnd_eq]
  split
  · exact keeps_pure h (fun h ↦ by cases h)
  · rename_i hin
    refine (alert_readLoop h hs (hready (not_not.mp hin))).bind (fun _ _ _ hI hsettled ↦ ?_)
    exact keeps_pure hI (fun _ ↦ hsettled)

theorem alert_rest (h : (alert lib process).invariant past sol) (hpast : Settled past)
    (events : List EpollEvent) :
    Alert (handleEvents events) process past sol (fun o past' _ ↦ o = none → Settled past') :=
  (alert_handling (handling_handling.meets_handleEvents events) h.1 hpast).mono
    (fun _ _ _ _ hsettled _ ↦ hsettled)

theorem alert_handleEvents (h : (alert lib process).invariant past sol)
    (hs : sol.tokenizerStatus = .CONTINUE) (hne : events ≠ [])
    (hfresh : Fresh process past events) :
    Alert (handleEvents events) process past sol (fun o past' _ ↦ o = none → Settled past') := by
  obtain ⟨ev, events, rfl⟩ := List.exists_cons_of_ne_nil hne
  have hmem : ev ∈ ev :: events := List.mem_cons_self ..
  refine keeps_get_bind ?_
  rw [h.1]
  split
  · rename_i hfd
    refine (alert_handleWriteEnd h hs (hfd ▸ hfresh.writable ev hmem)).bind ?_
    exact fun _ _ _ hI hsettled ↦ alert_rest hI hsettled events
  · rename_i hin
    rw [if_pos ((hfresh.either ev hmem).resolve_left hin)]
    have hfd := (hfresh.either ev hmem).resolve_left hin
    refine (alert_handleReadEnd h hs (hfd ▸ hfresh.readable ev hmem)).bind ?_
    intro o past' sol' hI hsettled
    cases o with
    | none => exact alert_rest hI (hsettled rfl) events
    | some status => exact keeps_pure hI (fun h ↦ by cases h)

theorem alert_poll (h : (alert lib process).invariant past sol)
    (hs : sol.tokenizerStatus = .CONTINUE) (howing : owing past = false)
    (untilPoint start : Int) :
    Alert (poll untilPoint ([], start)) process past sol (fun r past' sol' ↦
      sol' = sol ∧ (r.1 = [] → owing past' = false) ∧ Fresh process past' r.1) := by
  refine Keeps.loop (fun b past' sol' ↦ sol' = sol ∧ (b.1 = [] → owing past' = false) ∧
    Fresh process past' b.1) h ⟨rfl, fun _ ↦ howing, by constructor <;> simp⟩ ?_
  intro b past' sol' hI hJ
  obtain ⟨events, now⟩ := b
  obtain ⟨rfl, howing', hfresh⟩ := hJ
  dsimp only
  split
  · rename_i hgo
    simp only [epollWait, clockNow, bind_assoc]
    refine keeps_ask_bind hI (fun r hrely ↦ ⟨fun _ ↦ howing' hgo.1, ?_⟩)
    have hI' : (alert lib process).invariant (past' ++ [.epollWait r]) sol' :=
      ⟨hI.1, fun _ ↦ hs⟩
    cases r with
    | error e => exact keeps_raise hI' trivial
    | ok events' =>
      rw [checked, pure_bind]
      refine alert_ask_bind hI' (fun _ ↦ rfl) (fun t _ hI'' ↦ keeps_pure hI'' ?_)
      refine ⟨rfl, fun hempty ↦ ?_, (fresh_reported hrely).clock t⟩
      rw [owing_snoc, owing_snoc, show events' = [] from hempty]
      rfl
  · exact keeps_pure hI ⟨rfl, howing', hfresh⟩

theorem alert_round (h : (alert lib process).invariant past sol) (howing : owing past = false)
    (untilPoint : Int) (u : Unit) :
    Alert (round untilPoint u) process past sol (fun r past' _ ↦
      r = .inl () → owing past' = false) := by
  refine keeps_get_bind ?_
  split
  · exact keeps_pure h (fun h ↦ by cases h)
  · rename_i hs
    have hs' : sol.tokenizerStatus = .CONTINUE := not_not.mp hs
    refine alert_ask_bind h (fun _ ↦ rfl) (fun now _ hI ↦ ?_)
    refine (alert_poll hI hs' ?_ untilPoint now).bind (fun polled past' sol' hI' hQ ↦ ?_)
    · rw [owing_snoc, howing]
      rfl
    · obtain ⟨events, now'⟩ := polled
      obtain ⟨rfl, howing', hfresh⟩ := hQ
      dsimp only
      split
      · exact keeps_pure hI' (fun h ↦ by cases h)
      · have hevents : Alert (handleEvents events) process past' sol' (fun o past'' _ ↦
            o = none → owing past'' = false) := by
          by_cases hne : events = []
          · subst hne
            exact keeps_pure hI' (fun _ ↦ howing' rfl)
          · exact (alert_handleEvents hI' hs' hne hfresh).mono
              (fun _ _ _ _ hsettled h ↦ (hsettled h).owing)
        refine hevents.bind (fun o past'' sol'' hI'' howing'' ↦ ?_)
        cases o with
        | none => exact keeps_pure hI'' (fun _ ↦ howing'' rfl)
        | some status => exact keeps_pure hI'' (fun h ↦ by cases h)

theorem alert_checked_bind {α β : Type} {call : String} {r : Except Errno α}
    {f : α → Calls (Solution lib) β} {Q : β → List Event → Solution lib → Prop}
    (h : (alert lib process).invariant past sol)
    (hf : ∀ a, Alert (f a) process past sol Q) :
    Alert (checked call r >>= f) process past sol Q := by
  cases r with
  | error e => exact keeps_raise h trivial
  | ok a => exact hf a

theorem alert_rounds (h : (alert lib process).invariant past sol) (howing : owing past = false)
    (untilPoint : Int) :
    Alert (Program.loop (round untilPoint) ()) process past sol (fun _ _ _ ↦ True) := by
  refine Keeps.loop (fun _ past' _ ↦ owing past' = false) h howing ?_
  intro u past' sol' hI howing'
  refine (alert_round hI howing' untilPoint u).mono (fun r _ _ _ hr ↦ ?_)
  cases r with
  | inl u => exact hr rfl
  | inr status => trivial

theorem alert_communicate (sol : Solution lib) :
    Alert communicate sol.process [] sol (fun _ _ _ ↦ True) := by
  have hI : (alert lib sol.process).invariant [] sol := ⟨rfl, fun hx ↦ by simp [LastIsWait] at hx⟩
  refine keeps_get_bind ?_
  unfold assert
  split
  · rw [pure_bind]
    simp only [clockNow, epollCreate1, epollCtlAdd, bind_assoc]
    refine alert_ask_bind hI (fun _ ↦ rfl) (fun start _ hI ↦ ?_)
    refine alert_ask_bind hI (fun _ ↦ rfl) (fun r _ hI ↦ alert_checked_bind hI (fun _ ↦ ?_))
    refine alert_ask_bind hI (fun _ ↦ rfl) (fun r₁ _ hI ↦ alert_checked_bind hI (fun _ ↦ ?_))
    refine alert_ask_bind hI (fun _ ↦ rfl) (fun r₂ _ hI ↦ alert_checked_bind hI (fun _ ↦ ?_))
    exact alert_rounds hI rfl _
  · exact keeps_raise hI trivial

theorem communicate_awake {sol' : Solution lib} {o : Outcome Failure Result.Status}
    (hx : communicate.Executes sol tr o sol')
    (hprompt : Throughout (Event.Prompt sol.process) [] tr) :
    Throughout Event.Awake [] tr ∧ (LastIsWait tr → sol'.tokenizerStatus = .CONTINUE) := by
  obtain ⟨hawake, hinvariant, -⟩ := alert_communicate sol tr o sol' hx hprompt
  exact ⟨hawake, hinvariant.2⟩

end Solution

end FlowctlGame
