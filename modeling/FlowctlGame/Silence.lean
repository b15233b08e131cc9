import FlowctlGame.Conduct
import FlowctlGame.Session
import Mathlib.Data.List.Chain

namespace FlowctlGame

open Interaction Program Unistd Broker

variable {lib : TokenizerLibrary} {untilPoint : Int} {tr tr' : List Event} {e : Event}

/-- The calls that wait for events, move data or deregister a descriptor. -/
def Unistd.Event.Stirs : Event → Prop
  | .epollWait _ | .read _ _ | .write _ _ _ | .epollCtlDel _ _ => True
  | _ => False

def Unistd.EndsSilently (tr : List Event) : Prop :=
  ∃ before after, tr = before ++ .epollWait (.ok []) :: after ∧ ∀ e ∈ after, ¬ e.Stirs

def Unistd.Event.waits : Event → Bool
  | .epollWait _ => true
  | _ => false

/-- A clock reading that does not follow a wait, as the one that a round begins with, is
before `untilPoint`. -/
def Unistd.Punctual (untilPoint : Int) (e e' : Event) : Prop :=
  ∀ t, e' = .now t → e.waits = false → t < untilPoint

namespace Unistd

theorem endsSilently_snoc :
    EndsSilently (tr ++ [e]) ↔ e = .epollWait (.ok []) ∨ ¬ e.Stirs ∧ EndsSilently tr := by
  constructor
  · intro h
    obtain ⟨before, after, heq, hafter⟩ := h
    rcases List.eq_nil_or_concat after with rfl | ⟨after, last, rfl⟩
    · exact .inl (List.singleton_inj.mp (List.append_inj' heq rfl).2)
    · rw [List.concat_eq_append] at heq hafter
      rw [← List.cons_append, ← List.append_assoc] at heq
      obtain ⟨rfl, hlast⟩ := List.append_inj' heq rfl
      cases hlast
      refine .inr ⟨hafter e (by simp), before, after, rfl, fun e' he' ↦ hafter e' (by simp [he'])⟩
  · intro h
    rcases h with rfl | ⟨he, before, after, rfl, hafter⟩
    · exact ⟨tr, [], rfl, by simp⟩
    · refine ⟨before, after ++ [e], by simp, fun e' he' ↦ ?_⟩
      rcases List.mem_append.mp he' with h | h
      · exact hafter e' h
      · rw [List.mem_singleton.mp h]
        exact he

theorem endsSilently_append (h : ∀ e ∈ tr', ¬ e.Stirs) :
    EndsSilently (tr ++ tr') ↔ EndsSilently tr := by
  induction tr' using List.reverseRecOn with
  | nil => rw [List.append_nil]
  | append_singleton tr' e ih =>
    simp only [List.mem_append, List.mem_singleton, or_imp, forall_and, forall_eq] at h
    have hne : e ≠ .epollWait (.ok []) := by
      intro heq
      rw [heq] at h
      exact h.2 trivial
    rw [← List.append_assoc, endsSilently_snoc, ih h.1]
    simp [hne, h.2]

theorem not_endsSilently (he : e.Stirs) (hne : e ≠ .epollWait (.ok []))
    (h : ∀ e' ∈ tr', e'.waits = false) : ¬ EndsSilently (tr ++ e :: tr') := by
  induction tr' using List.reverseRecOn with
  | nil =>
    rw [endsSilently_snoc]
    simp [he, hne]
  | append_singleton tr' e' ih =>
    simp only [List.mem_append, List.mem_singleton, or_imp, forall_and, forall_eq] at h
    have hne' : e' ≠ .epollWait (.ok []) := by
      intro heq
      rw [heq] at h
      cases h.2
    rw [← List.cons_append, ← List.append_assoc, endsSilently_snoc]
    simp [hne', ih h.1]

theorem punctual_of_ne {e' : Event} (h : ∀ t, e' ≠ .now t) : Punctual untilPoint e e' :=
  fun t ht ↦ absurd ht (h t)

theorem isChain_snoc {R : Event → Event → Prop} (h : tr.IsChain R)
    (hlast : ∀ last ∈ tr.getLast?, R last e) : (tr ++ [e]).IsChain R := by
  refine h.append (.singleton e) (fun last hl e' he' ↦ ?_)
  cases he'
  exact hlast last hl

theorem punctual_append (h : tr.IsChain (Punctual untilPoint))
    (h' : ∀ e ∈ tr', ∀ t, e ≠ .now t) : (tr ++ tr').IsChain (Punctual untilPoint) := by
  induction tr' using List.reverseRecOn with
  | nil => rwa [List.append_nil]
  | append_singleton tr' e ih =>
    simp only [List.mem_append, List.mem_singleton, or_imp, forall_and, forall_eq] at h'
    rw [← List.append_assoc]
    exact isChain_snoc (ih h'.1) (fun _ _ ↦ punctual_of_ne h'.2)

/-- The calls up to the start of a round, as long as no round was late. -/
structure Lively (untilPoint : Int) (tr : List Event) : Prop where
  punctual : tr.IsChain (Punctual untilPoint)
  loud : ¬ EndsSilently tr
  last : ∃ before e, tr = before ++ [e] ∧ e.waits = false

theorem Lively.late {now : Int} (h : Lively untilPoint tr) (hlate : untilPoint ≤ now) :
    EndsSilently (tr ++ [.now now]) ↔ (tr ++ [Event.now now]).IsChain (Punctual untilPoint) := by
  obtain ⟨-, hloud, before, last, hlast, hwaits⟩ := h
  have hsilent : ¬ EndsSilently (tr ++ [.now now]) := by
    rw [endsSilently_append (by simp [Event.Stirs])]
    exact hloud
  have hbroken : ¬ (tr ++ [Event.now now]).IsChain (Punctual untilPoint) := by
    intro hchain
    rw [hlast, List.append_assoc] at hchain
    have hlink := (List.isChain_append_cons_cons.mp hchain).2.1 now rfl hwaits
    omega
  exact ⟨fun h ↦ absurd h hsilent, fun h ↦ absurd h hbroken⟩

theorem Lively.handled {events : List EpollEvent} {now : Int}
    (h : (tr ++ [Event.epollWait (.ok events), .now now]).IsChain (Punctual untilPoint))
    (hne : events ≠ []) (hbusy : ∀ e ∈ tr', e.waits = false ∧ ∀ t, e ≠ .now t) :
    Lively untilPoint (tr ++ .epollWait (.ok events) :: .now now :: tr') := by
  refine ⟨?_, ?_, ?_⟩
  · have hall := punctual_append h (fun e he ↦ (hbusy e he).2)
    simpa using hall
  · exact not_endsSilently trivial (by simpa using hne)
      (List.forall_mem_cons.mpr ⟨rfl, fun e he ↦ (hbusy e he).1⟩)
  · rcases List.eq_nil_or_concat tr' with rfl | ⟨tr', last, rfl⟩
    · exact ⟨tr ++ [.epollWait (.ok events)], .now now, by simp, rfl⟩
    · exact ⟨tr ++ .epollWait (.ok events) :: .now now :: tr', last, by simp,
        (hbusy last (by simp)).1⟩

end Unistd

namespace Solution

theorem poll_silence (sol : Solution lib) {before : List Event} {start : Int}
    (hpunctual : start < untilPoint → (before ++ [Event.now start]).IsChain (Punctual untilPoint)) :
    (poll untilPoint ([], start)).Ensures sol (fun tr o sol' ↦
      ∀ events now, o = .returned (events, now) → sol' = sol ∧
        (events = [] → untilPoint ≤ now) ∧ (untilPoint ≤ start ∧ tr = [] ∧ events = [] ∨
        start < untilPoint ∧ (before ++ Event.now start :: tr).IsChain (Punctual untilPoint) ∧
          ∃ tr', tr = tr' ++ [Event.epollWait (.ok events), .now now])) := by
  unfold poll
  refine Ensures.loop (fun b tr sol' ↦ sol' = sol ∧
    (b = ([], start) ∧ tr = [] ∨
    start < untilPoint ∧ (before ++ Event.now start :: tr).IsChain (Punctual untilPoint) ∧
      ∃ tr', tr = tr' ++ [Event.epollWait (.ok b.1), .now b.2])) ⟨rfl, .inl ⟨rfl, rfl⟩⟩ ?_ ?_
  · exact fun _ _ _ _ _ _ h ↦ by cases h
  · intro b tr t h
    obtain ⟨events, now⟩ := b
    obtain ⟨rfl, h⟩ := h
    dsimp only at h ⊢
    split
    · rename_i hgo
      have hlively : start < untilPoint ∧
          (before ++ Event.now start :: tr).IsChain (Punctual untilPoint) := by
        rcases h with ⟨heq, rfl⟩ | ⟨hlt, hchain, -⟩
        · cases heq
          exact ⟨hgo.2, hpunctual hgo.2⟩
        · exact ⟨hlt, hchain⟩
      simp only [epollWait, bind_assoc, ensures_ask_bind, ensures_checked_bind]
      refine ⟨by simp, fun m ↦ ⟨fun events' hm ↦ ?_, by simp⟩⟩
      rw [hm]
      simp only [clockNow, ensures_ask_bind, ensures_pure]
      refine ⟨by simp, fun m' ↦ ⟨trivial, .inr ⟨hlively.1, ?_, tr, rfl⟩⟩⟩
      have hwait := punctual_append hlively.2
        (show ∀ e ∈ [Event.epollWait (.ok events')], ∀ t, e ≠ .now t by simp)
      have hclock : (before ++ Event.now start :: tr ++ [Event.epollWait (.ok events')] ++
          [Event.now m'.now]).IsChain (Punctual untilPoint) := by
        refine isChain_snoc hwait (fun last hlast ↦ ?_)
        rw [List.getLast?_concat, Option.mem_some_iff] at hlast
        subst hlast
        exact fun _ _ h ↦ by cases h
      simpa using hclock
    · rename_i hstop
      simp only [ensures_pure, List.append_nil]
      intro events' now' heq
      cases heq
      refine ⟨trivial, by simpa using hstop, ?_⟩
      rcases h with ⟨heq, rfl⟩ | h
      · cases heq
        exact .inl ⟨by simpa using hstop, rfl, rfl⟩
      · exact .inr h

def busy (lib : TokenizerLibrary) : Contract Event (Solution lib) Failure where
  invariant _ := True
  allowed e := e.waits = false ∧ ∀ t, e ≠ .now t
  fatal _ := False
  error _ := True

theorem busy_handling : Handling (busy lib) where
  deregisters _ _ := ⟨rfl, by simp⟩
  writes _ _ _ _ := ⟨rfl, by simp⟩
  reads _ _ _ := ⟨rfl, by simp⟩
  drained _ _ _ := trivial
  absorbed _ _ _ _ _ := trivial
  chokes _ _ _ _ _ _ _ := trivial
  unexpected := trivial
  throws _ := trivial

theorem round_silence (sol : Solution lib) {before : List Event}
    (hlively : Lively untilPoint before) :
    (round untilPoint ()).Ensures sol (fun tr o _ ↦
      (o = .returned (.inl ()) → Lively untilPoint (before ++ tr)) ∧
      (o = .returned (.inr .REAL_TIME_LIMIT_EXCEEDED) →
        (EndsSilently (before ++ tr) ↔ (before ++ tr).IsChain (Punctual untilPoint)))) := by
  simp only [round, ensures_get_bind]
  split
  · simp
  · simp only [clockNow, ensures_ask_bind]
    refine ⟨by simp, fun m ↦ ?_⟩
    have hstart : m.now < untilPoint →
        (before ++ [Event.now m.now]).IsChain (Punctual untilPoint) := by
      intro hlt
      refine isChain_snoc hlively.punctual (fun e _ t ht _ ↦ ?_)
      cases ht
      exact hlt
    refine (poll_silence sol hstart).sequence ?_ (by simp) (by simp)
    intro tr polled t h
    obtain ⟨events, now⟩ := polled
    obtain ⟨rfl, hstop, hpoll⟩ := h events now rfl
    dsimp only
    split
    · rename_i hlimit
      obtain ⟨rfl, hle⟩ := hlimit
      simp only [ensures_pure, List.append_nil]
      refine ⟨(fun h ↦ by cases h), fun _ ↦ ?_⟩
      rcases hpoll with ⟨hlate, rfl, -⟩ | ⟨hlt, hchain, tr', rfl⟩
      · -- no wait was made in this round
        exact hlively.late hlate
      · refine ⟨fun _ ↦ hchain, fun _ ↦ ⟨before ++ .now m.now :: tr', [.now now], by simp, ?_⟩⟩
        simp [Event.Stirs]
    · rename_i hlimit
      have hne : events ≠ [] := fun h ↦ hlimit ⟨h, hstop h⟩
      rcases hpoll with ⟨-, -, hnil⟩ | ⟨hlt, hchain, tr', rfl⟩
      · exact absurd hnil hne
      · have hevents : (handleEvents events).Ensures t (fun tr o _ ↦
            (∀ e ∈ tr, (busy lib).allowed e) ∧ ∀ status, o = .returned (some status) →
              status = .OK) := by
          intro busyTr o t' he
          refine ⟨(busy_handling.meets_handleEvents events t trivial _ _ _ he).2.1,
            fun status ho ↦ ?_⟩
          exact ((handleEvents_spec t events _ _ _ he).2 status ho).1
        refine hevents.sequence ?_ (by simp) (by simp)
        intro busyTr status t' h
        obtain ⟨hbusy, hok⟩ := h
        cases status with
        | some status => simp [hok status rfl]
        | none =>
          simp only [ensures_pure, List.append_nil]
          refine ⟨fun _ ↦ ?_, fun h ↦ by cases h⟩
          have hchain' : (before ++ Event.now m.now :: tr' ++
              [Event.epollWait (.ok events), .now now]).IsChain (Punctual untilPoint) := by
            simpa using hchain
          simpa using Lively.handled hchain' hne hbusy

/-- `communicate` gives up in silence just when every round began before the deadline. -/
theorem limit_after_silence_iff {sol sol' : Solution lib} {tr : List Event}
    (h : communicate.Executes sol tr (.returned .REAL_TIME_LIMIT_EXCEEDED) sol') :
    ∃ start rest, tr = .now start :: rest ∧ (EndsSilently tr ↔
      tr.IsChain (Punctual (deadline start sol.resourceLimits.realTimeLimit))) := by
  have hspec : communicate.Ensures sol (fun tr o _ ↦
      o = .returned .REAL_TIME_LIMIT_EXCEEDED → ∃ start rest, tr = .now start :: rest ∧
        (EndsSilently tr ↔
          tr.IsChain (Punctual (deadline start sol.resourceLimits.realTimeLimit)))) := by
    simp only [communicate, clockNow, epollCreate1, epollCtlAdd, bind_assoc, ensures_get_bind,
      ensures_assert_bind, ensures_ask_bind, ensures_checked_bind]
    refine ⟨fun _ ↦ ⟨by simp, fun m ↦ ⟨by simp, fun m₁ ↦ ⟨fun _ h₁ ↦ ⟨by simp, fun m₂ ↦ ⟨fun _ h₂ ↦
      ⟨by simp, fun m₃ ↦ ⟨fun _ h₃ ↦ ?_, by simp⟩⟩, by simp⟩⟩, by simp⟩⟩⟩, by simp⟩
    let opening : List Event := [.now m.now, .epollCreate1 m₁.epollCreate1,
      .epollCtlAdd sol.process.inFd { fd := sol.process.inFd, EPOLLOUT := true } m₂.epollCtl,
      .epollCtlAdd sol.process.outFd { fd := sol.process.outFd, EPOLLIN := true } m₃.epollCtl]
    have hlively : Lively (deadline m.now sol.resourceLimits.realTimeLimit) opening := by
      refine ⟨by simp [opening, punctual_of_ne], ?_, [_, _, _], _, rfl, rfl⟩
      rw [← List.nil_append opening, endsSilently_append (by simp [opening, Event.Stirs])]
      simp [EndsSilently]
    refine Ensures.loop (fun _ tr _ ↦ Lively (deadline m.now sol.resourceLimits.realTimeLimit)
      (opening ++ tr)) (by simpa using hlively) (by simp) ?_
    intro _ tr t htr
    refine (round_silence t htr).mono (fun tr' o t' hround ↦ ?_)
    rw [List.append_assoc] at hround
    rcases o with (⟨⟨⟩⟩ | status) | e | _
    · exact hround.1 rfl
    · intro heq
      cases heq
      exact ⟨m.now, _, rfl, hround.2 rfl⟩
    · exact fun h ↦ by cases h
    · exact fun h ↦ by cases h
  exact hspec _ _ _ h rfl

def awaiting : Solution SplitChar.library where
  process := ⟨4, 5, 10⟩
  tokenizer := some (⟨10⟩ : SplitChar)

def registered : List Event :=
  [.now 0, .epollCreate1 (.ok ()), .epollCtlAdd 4 { fd := 4, EPOLLOUT := true } (.ok ()),
    .epollCtlAdd 5 { fd := 5, EPOLLIN := true } (.ok ())]

theorem limit_after_silence_iff_polled :
    EndsSilently (registered ++ [.now 1, .epollWait (.ok []), .now 3600000000000]) := by
  have hrun : communicate.Executes awaiting
      (registered ++ [.now 1, .epollWait (.ok []), .now 3600000000000])
      (.returned .REAL_TIME_LIMIT_EXCEEDED) awaiting := by
    refine ⟨[{}, {}, {}, {}, { now := 1 }, {}, { now := 3600000000000 }], ?_⟩
    cbv
  obtain ⟨start, rest, heq, hiff⟩ := limit_after_silence_iff hrun
  refine hiff.mpr ?_
  cases heq
  simp [registered, Punctual, Event.waits, deadline, awaiting]

/-- The deadline passes while a first piece `x` of the answer is read; whatever follows it in
the pipe is not looked at. -/
theorem limit_without_wait :
    communicate.Executes awaiting
      (registered ++ [.now 1, .epollWait (.ok [{ fd := 5, EPOLLIN := true }]), .now 2,
        .read 5 (.ok [120]), .read 5 (.error .EAGAIN), .now 3600000000000])
      (.returned .REAL_TIME_LIMIT_EXCEEDED) { awaiting with result := [120] } ∧
    ¬ EndsSilently (registered ++ [.now 1, .epollWait (.ok [{ fd := 5, EPOLLIN := true }]), .now 2,
        .read 5 (.ok [120]), .read 5 (.error .EAGAIN), .now 3600000000000]) := by
  refine ⟨⟨[{}, {}, {}, {}, { now := 1 }, { epollWait := .ok [{ fd := 5, EPOLLIN := true }] },
    { now := 2 }, { read := .ok [120] }, {}, { now := 3600000000000 }], ?_⟩, ?_⟩
  · cbv
  · have hloud : ¬ EndsSilently (registered ++ [.now 1] ++
        .epollWait (.ok [{ fd := 5, EPOLLIN := true }]) :: [.now 2, .read 5 (.ok [120]),
          .read 5 (.error .EAGAIN), .now 3600000000000]) :=
      not_endsSilently trivial (by simp) (by simp [Event.waits])
    simpa using hloud

end Solution

end FlowctlGame
