import FlowctlGame.Session

namespace FlowctlGame

open Interaction Unistd Broker

variable {lib : TokenizerLibrary} {processes : List Process} {p q : Process} {id : Killer.Id}
  {e : Event} {tr tr' : List Event} {who : Option Process} {sol sol' : Solution lib}

/-- Whose turn it is. A process is thawed when nobody's is, and then only its own pipes are
used and the next request freezes it again. -/
inductive Turn (processes : List Process) : Option Process → Event → Option Process → Prop
  | thaw {p : Process} {status : Killer.Status} (hp : p ∈ processes) :
      Turn processes none (.killer .UNFREEZE p.id (.ok status)) (some p)
  | move {p : Process} {e : Event} (ht : e.transfers = true) (haddr : e.Addresses p) :
      Turn processes (some p) e (some p)
  | ice {p : Process} {status : Killer.Status} :
      Turn processes (some p) (.killer .FREEZE p.id (.ok status)) none
  | stop {act : Killer.Act} {id : Killer.Id} {r : Except Exception Killer.Status}
      (hact : act ≠ .UNFREEZE) : Turn processes none (.killer act id r) none
  | idle {turn : Option Process} {e : Event} (ht : e.transfers = false)
      (hr : e.requests = false) : Turn processes turn e turn

def Unistd.Event.request (id : Killer.Id) : Event → Option Killer.Act
  | .killer act id' _ => if id' = id then some act else none
  | _ => none

def lastRequest (id : Killer.Id) (tr : List Event) : Option Killer.Act :=
  (tr.filterMap (Event.request id)).getLast?

theorem lastRequest_append (id : Killer.Id) (tr tr' : List Event) :
    lastRequest id (tr ++ tr') = (lastRequest id tr').or (lastRequest id tr) := by
  simp [lastRequest, List.getLast?_append]

theorem lastRequest_cons (id : Killer.Id) (e : Event) (tr : List Event) :
    lastRequest id (e :: tr) = (lastRequest id tr).or (e.request id) := by
  rw [← List.singleton_append, lastRequest_append]
  cases h : e.request id <;> simp [lastRequest, h]

theorem lastRequest_snoc (id : Killer.Id) (tr : List Event) (e : Event) :
    lastRequest id (tr ++ [e]) = (e.request id).or (lastRequest id tr) := by
  rw [lastRequest_append]
  cases h : e.request id <;> simp [lastRequest, h]

def InTurn (p : Process) (tr : List Event) : Prop :=
  ∀ e ∈ tr, e.requests = false ∧ (e.transfers = true → e.Addresses p)

def Told (tr : List Event) : Option Process → Prop
  | none => ∀ id, lastRequest id tr ≠ some .UNFREEZE
  | some p => (∀ id, lastRequest id tr = some .UNFREEZE → id = p.id) ∧
      ∃ before status mid, tr = before ++ .killer .UNFREEZE p.id (.ok status) :: mid ∧
        InTurn p mid

theorem told_nil : Told [] none := by
  intro id hid
  cases hid

theorem Told.step {who' : Option Process} (h : Told tr who) (hs : Turn processes who e who') :
    Told (tr ++ [e]) who' := by
  have hsilent (he : e.requests = false) (id : Killer.Id) :
      lastRequest id (tr ++ [e]) = lastRequest id tr := by
    rw [lastRequest_snoc]
    cases e <;> first | rfl | cases he
  have hstays (p : Process) (hp : Told tr (some p)) (he : e.requests = false)
      (haddr : e.transfers = true → e.Addresses p) : Told (tr ++ [e]) (some p) := by
    obtain ⟨hlast, before, status, mid, rfl, hmid⟩ := hp
    refine ⟨fun id hid ↦ hlast id (by rwa [hsilent he] at hid), before, status, mid ++ [e], ?_, ?_⟩
    · rw [List.append_assoc, List.cons_append]
    · intro e' he'
      rcases List.mem_append.mp he' with hmem | hmem
      · exact hmid e' hmem
      · rw [List.mem_singleton.mp hmem]
        exact ⟨he, haddr⟩
  cases hs with
  | thaw hp =>
    refine ⟨fun id hid ↦ ?_, tr, _, [], rfl, by simp [InTurn]⟩
    by_contra hne
    rw [lastRequest_snoc, Event.request, if_neg (fun heq ↦ hne heq.symm)] at hid
    exact h id hid
  | move ht haddr =>
    refine hstays _ h ?_ (fun _ ↦ haddr)
    cases e <;> first | rfl | cases ht
  | @ice p =>
    intro id hid
    by_cases heq : p.id = id
    · rw [lastRequest_snoc, Event.request, if_pos heq] at hid
      cases hid
    · rw [lastRequest_snoc, Event.request, if_neg heq] at hid
      exact heq (h.1 id hid).symm
  | @stop act id' r hact =>
    intro id hid
    by_cases heq : id' = id
    · rw [lastRequest_snoc, Event.request, if_pos heq] at hid
      exact hact (Option.some.inj hid)
    · rw [lastRequest_snoc, Event.request, if_neg heq] at hid
      exact h id hid
  | idle ht hr =>
    cases who with
    | none =>
      intro id hid
      rw [hsilent hr] at hid
      exact h id hid
    | some p => exact hstays p h hr (fun htrue ↦ by rw [ht] at htrue; cases htrue)

theorem told (h : Path (Turn processes) none tr who) : Told tr who :=
  h.invariant told_nil (fun _ _ _ _ _ hI hs ↦ hI.step hs)

theorem turn_mem (h : Path (Turn processes) none tr who) : ∀ p, who = some p → p ∈ processes := by
  apply h.preserves (I := fun who ↦ ∀ p, who = some p → p ∈ processes)
  · intro s e t hs hI
    cases hs with
    | thaw hp =>
      intro p heq
      cases heq
      exact hp
    | move => exact hI
    | ice => exact fun _ h ↦ by cases h
    | stop => exact hI
    | idle => exact hI
  · exact fun _ h ↦ by cases h

theorem turn_ends (h : Path (Turn processes) (some p) tr none) :
    ∃ mid status after, tr = mid ++ .killer .FREEZE p.id (.ok status) :: after ∧ InTurn p mid := by
  generalize hs : some p = s at h
  generalize ht : (none : Option Process) = t at h
  induction h with
  | nil => rw [← ht] at hs; cases hs
  | @cons s u t e tr hstep h ih =>
    subst hs
    have hcons (hu : some p = u) (he : e.requests = false)
        (haddr : e.transfers = true → e.Addresses p) :
        ∃ mid status after, e :: tr = mid ++ .killer .FREEZE p.id (.ok status) :: after ∧
          InTurn p mid := by
      obtain ⟨mid, status, after, rfl, hmid⟩ := ih hu ht
      exact ⟨e :: mid, status, after, rfl, List.forall_mem_cons.mpr ⟨⟨he, haddr⟩, hmid⟩⟩
    cases hstep with
    | move hmove haddr =>
      refine hcons rfl ?_ (fun _ ↦ haddr)
      cases e <;> first | rfl | cases hmove
    | ice => exact ⟨[], _, tr, rfl, by simp [InTurn]⟩
    | idle hmove hr => exact hcons rfl hr (fun htrue ↦ by rw [hmove] at htrue; cases htrue)

namespace Solution

theorem Step.turn (h : Step sol e sol') :
    Turn processes (some sol.process) e (some sol.process) := by
  have haddr := h.addresses
  cases h with
  | quiet he => cases e <;> first | exact .idle rfl rfl | exact he.elim
  | _ => exact .move rfl haddr

theorem path_turn (processes : List Process) (h : Path Step sol tr sol') :
    Path (Turn processes) (some sol.process) tr (some sol.process) := by
  induction h with
  | nil => exact .nil _
  | cons hs h ih =>
    rw [hs.process_eq] at ih
    exact .cons hs.turn ih

theorem Communicated.turn {status : Result.Status} (hmem : sol.process ∈ processes)
    (h : sol.Communicated tr status sol') : Path (Turn processes) none tr none := by
  cases h with
  | decided => exact .one (.idle rfl rfl)
  | exchanged hs hrun =>
    have hpath := path_turn processes (communicate_spec _ _ _ _ hrun).1
    exact .cons (.idle rfl rfl) (.cons (.thaw hmem) (hpath.snoc .ice))

end Solution

namespace BrokerImpl

variable {b b' : BrokerImpl lib} {h : List Exchange} {options : Options} {startup : List Event}

theorem Effect.turn {c : Command} {reply : Option Result} (hmem : sol.process ∈ processes)
    (he : b.Effect c sol tr reply sol') : Path (Turn processes) none tr none := by
  cases he with
  | begun => exact .one (.idle rfl rfl)
  | sent => exact .nil _
  | terminated => exact .one (.stop (fun h ↦ by cases h))
  | ended htok hended =>
    cases hended with
    | judged hc => exact hc.turn hmem
    | terminated hc hs => exact (hc.turn hmem).snoc (.stop (fun h ↦ by cases h))

theorem Startup.turn {ps : List Process} (h : Startup ps tr) :
    Path (Turn processes) none tr none := by
  induction h with
  | nil => exact .nil _
  | cons h ih =>
    have hidle (fd : Fd) (flags : ℕ) : Path (Turn processes) none (nonblocking fd flags) none :=
      .cons (.idle rfl rfl) (.one (.idle rfl rfl))
    exact .cons (.stop (fun h ↦ by cases h)) (((hidle _ _).append (hidle _ _)).append ih)

theorem Startup.only_freezes {ps : List Process} (h : Startup ps tr) (id : Killer.Id) :
    lastRequest id tr = none ∨ lastRequest id tr = some .FREEZE := by
  induction h with
  | nil => exact .inl rfl
  | @cons q ps tr ice _ _ h ih =>
    simp only [nonblocking, List.cons_append, List.nil_append, lastRequest_cons, Event.request,
      Option.or_none]
    rcases ih with hnone | hsome
    · rw [hnone, Option.none_or]
      by_cases hq : q.id = id <;> simp [hq]
    · exact .inr (by rw [hsome, Option.some_or])

theorem Startup.freezes {ps : List Process} (h : Startup ps tr) (hp : p ∈ ps) :
    lastRequest p.id tr = some .FREEZE := by
  induction h with
  | nil => cases hp
  | @cons q ps tr ice _ _ h ih =>
    simp only [nonblocking, List.cons_append, List.nil_append, lastRequest_cons, Event.request,
      Option.or_none]
    rcases List.mem_cons.mp hp with rfl | hp
    · rcases h.only_freezes p.id with hnone | hsome
      · rw [hnone, Option.none_or, if_pos rfl]
      · rw [hsome, Option.some_or]
    · rw [ih hp, Option.some_or]

theorem answers_turn {x : Exchange} (hmap : b.solutions.map (·.process) = processes)
    (hx : Answers b x b') : Path (Turn processes) none x.trace none := by
  obtain ⟨sol, sol', reply, hsol, -, he, -⟩ := answers_cases hx
  refine he.turn ?_
  rw [← hmap]
  exact List.mem_map_of_mem (List.mem_of_getElem? hsol)

theorem run_turn (hmap : b.solutions.map (·.process) = processes) (hp : Path Answers b h b') :
    Path (Turn processes) none (h.flatMap (·.trace)) none := by
  induction hp with
  | nil => exact .nil none
  | cons hx hp ih =>
    rw [List.flatMap_cons]
    exact (answers_turn hmap hx).append (ih ((answers_processes hx).trans hmap))

def Unistd.Event.OnPipeOf (p : Process) : Event → Prop
  | .read fd _ | .write fd _ _ => fd = p.inFd ∨ fd = p.outFd
  | _ => False

/-- No request is made, and no pipe but those of `p` is used. -/
def Undisturbed (processes : List Process) (p : Process) (tr : List Event) : Prop :=
  ∀ e ∈ tr, e.requests = false ∧ ∀ q ∈ processes, Unistd.Event.OnPipeOf q e → q = p

/-- Every use of a pipe falls between the two requests that thaw and freeze its process,
nobody is left thawed, and never are two. -/
structure TurnExclusive (processes : List Process) (tr : List Event) : Prop where
  within : ∀ p ∈ processes, ∀ before e after, tr = before ++ e :: after →
    Unistd.Event.OnPipeOf p e → ∃ earlier thaw mid mid' ice later,
      before = earlier ++ .killer .UNFREEZE p.id (.ok thaw) :: mid ∧
        after = mid' ++ .killer .FREEZE p.id (.ok ice) :: later ∧
          Undisturbed processes p (mid ++ mid')
  stopped : ∀ p ∈ processes, ∃ act, lastRequest p.id tr = some act ∧ act ≠ .UNFREEZE
  alone : ∀ before after, tr = before ++ after → ∀ id id',
    lastRequest id before = some .UNFREEZE → lastRequest id' before = some .UNFREEZE → id = id'

theorem InTurn.undisturbed (hw : options.WellFormed) (hp : p ∈ options.solutions)
    (h : InTurn p tr) : Undisturbed options.solutions p tr := by
  intro e he
  obtain ⟨hr, haddr⟩ := h e he
  refine ⟨hr, fun q hq hon ↦ ?_⟩
  cases e with
  | read fd r =>
    exact hw.owner hq hp hon (.inr (haddr rfl))
  | write fd data r =>
    exact hw.owner hq hp hon (.inl (haddr rfl))
  | _ => exact hon.elim

theorem turnExclusive_of_path (hw : options.WellFormed)
    (h : Path (Turn options.solutions) none tr none)
    (hnamed : ∀ p ∈ options.solutions, lastRequest p.id tr ≠ none) :
    TurnExclusive options.solutions tr where
  within := by
    intro p hp before e after hsplit hon
    rw [hsplit] at h
    obtain ⟨who, hbefore, hrest⟩ := h.split
    cases hrest with
    | cons hstep hafter =>
      cases hstep with
      | thaw => exact hon.elim
      | ice => exact hon.elim
      | stop => exact hon.elim
      | idle ht => cases e <;> first | exact hon.elim | cases ht
      | @move q _ ht haddr =>
        have hq := turn_mem hbefore q rfl
        have hqp : q = p := by
          cases e with
          | read fd r => exact hw.owner hq hp (.inr haddr) hon
          | write fd data r => exact hw.owner hq hp (.inl haddr) hon
          | _ => exact hon.elim
        subst hqp
        obtain ⟨-, earlier, thaw, mid, hmid, hin⟩ := told hbefore
        obtain ⟨mid', ice, later, hmid', hin'⟩ := turn_ends hafter
        refine ⟨earlier, thaw, mid, mid', ice, later, hmid, hmid', ?_⟩
        exact InTurn.undisturbed hw hq (List.forall_mem_append.mpr ⟨hin, hin'⟩)
  stopped := by
    intro p hp
    obtain ⟨act, hact⟩ := Option.ne_none_iff_exists'.mp (hnamed p hp)
    refine ⟨act, hact, fun hthaw ↦ told h p.id ?_⟩
    rw [hact, hthaw]
  alone := by
    intro before after hsplit id id' hid hid'
    rw [hsplit] at h
    obtain ⟨who, hbefore, -⟩ := h.split
    cases who with
    | none => exact absurd hid (told hbefore id)
    | some p =>
      have hlast := (told hbefore).1
      rw [hlast id hid, hlast id' hid']

theorem answers_thaw {x : Exchange} (hx : Answers b x b') {id : Killer.Id}
    {r : Except Exception Killer.Status} (hmem : .killer .UNFREEZE id r ∈ x.trace) :
    ∃ i discardRemaining sol, x.command = .end' i discardRemaining ∧
      b.solutions[i.toNat]? = some sol ∧ sol.process.id = id := by
  obtain ⟨sol, sol', reply, hsol, -, he, -⟩ := answers_cases hx
  have haddr := he.addresses _ hmem
  generalize hc : x.command = c at hsol he
  generalize x.trace = tr at hmem he
  cases he with
  | begun => simp at hmem
  | sent => simp at hmem
  | terminated => simp at hmem
  | ended => exact ⟨_, _, sol, rfl, hsol, haddr.symm⟩

theorem run_thaw (hmap : b.solutions.map (·.process) = processes) (hp : Path Answers b h b') :
    ∀ x ∈ h, ∀ id r, .killer .UNFREEZE id r ∈ x.trace → ∃ i discardRemaining p,
      x.command = .end' i discardRemaining ∧ processes[i.toNat]? = some p ∧ p.id = id := by
  induction hp with
  | nil => simp
  | @cons b c _ x h hx hp ih =>
    refine List.forall_mem_cons.mpr ⟨fun id r hmem ↦ ?_, ih ((answers_processes hx).trans hmap)⟩
    obtain ⟨i, discardRemaining, sol, hc, hsol, hid⟩ := answers_thaw hx hmem
    refine ⟨i, discardRemaining, sol.process, hc, ?_, hid⟩
    rw [← hmap, List.getElem?_map, hsol, Option.map_some]

/-- The solutions take turns: from the constructor on, nobody runs but in its own `end`. -/
theorem turns_are_exclusive (hw : options.WellFormed) (h₀ : Started options startup b)
    (hp : Path Answers b h b') :
    TurnExclusive options.solutions (startup ++ h.flatMap (·.trace)) ∧
      ∀ x ∈ h, ∀ id r, .killer .UNFREEZE id r ∈ x.trace → ∃ i discardRemaining p,
        x.command = .end' i discardRemaining ∧ options.solutions[i.toNat]? = some p ∧
          p.id = id := by
  have hmap := processes_eq h₀ (.nil b)
  obtain ⟨hstartup, -⟩ := started_spec h₀
  refine ⟨turnExclusive_of_path hw (hstartup.turn.append (run_turn hmap hp)) ?_, run_thaw hmap hp⟩
  intro p hmem
  rw [lastRequest_append, hstartup.freezes hmem]
  cases lastRequest p.id (h.flatMap (·.trace)) <;> simp

def Options.pair : Options :=
  { Options.single with solutions := [⟨4, 5, 10⟩, ⟨14, 15, 20⟩] }

def pairStartup : List Event :=
  [.killer .FREEZE 10 (.ok .OK)] ++ nonblocking 4 0 ++ nonblocking 5 0 ++
    ([.killer .FREEZE 20 (.ok .OK)] ++ nonblocking 14 0 ++ nonblocking 15 0)

theorem pair_started :
    Started Options.pair pairStartup (ready Options.pair : BrokerImpl lib) := by
  refine ⟨List.replicate 10 {}, ?_⟩
  cbv

/-- The pipes of a solution, ready at both ends, from which a line is read. -/
def talking (inFd outFd : Fd) (line : Bytes) : Answer where
  epollWait := .ok [{ fd := inFd, EPOLLOUT := true }, { fd := outFd, EPOLLIN := true }]
  write := .ok 8
  read := .ok line

/-- Both solutions are given a word and answer with a line, the second one first. Then that
one has another turn and is killed at its time limit. -/
def twoTurnsRun : List Exchange :=
  ((ready Options.pair : BrokerImpl SplitChar.library).replay
    [(.begin₁ 0, [{}]), (.begin₁ 1, [{}]), (.send 0 [120, 10], []), (.send 1 [121, 10], []),
      (.end' 1 false, List.replicate 16 (talking 14 15 [98, 10])),
      (.end' 0 true, List.replicate 16 (talking 4 5 [97, 10])),
      (.begin₃ 1 [10] ⟨0, 0⟩, [{}]), (.end' 1 false, List.replicate 14 {})]).1

theorem turns_are_exclusive_two_turns :
    TurnExclusive Options.pair.solutions (pairStartup ++ twoTurnsRun.flatMap (·.trace)) ∧
      (twoTurnsRun.flatMap (·.trace)).filter Event.transfers =
        [.write 14 [121, 10] (.ok 2), .read 15 (.ok [98, 10]), .write 4 [120, 10] (.ok 2),
          .read 5 (.ok [97, 10])] := by
  have hw : Options.pair.WellFormed := by simp [Options.WellFormed, Options.pair]
  have hp : Path Answers (ready Options.pair : BrokerImpl SplitChar.library) twoTurnsRun _ :=
    replay_path _ _ (by decide)
  exact ⟨(turns_are_exclusive hw pair_started hp).1, by cbv⟩

end BrokerImpl

end FlowctlGame
