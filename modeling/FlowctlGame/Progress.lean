import FlowctlGame.Exceptional
import FlowctlGame.Pipes
import FlowctlGame.Wakeups

namespace FlowctlGame

open Interaction Program Unistd Broker

variable {lib : TokenizerLibrary} {W : Worker} {capacities : Capacities} {process : Process}
  {sol sol' : Solution lib} {side side' : Side W} {steps : List (Event ⊕ Act)}
  {past tr : List Event} {e : Event} {o : Outcome Failure Result.Status}

namespace Unistd

def Event.Opens : Event → Prop
  | .epollCreate1 _ | .epollCtlAdd _ _ _ => True
  | _ => False

def opening (process : Process) (start : Int) : List Event :=
  [.now start, .epollCreate1 (.ok ()),
    .epollCtlAdd process.inFd { fd := process.inFd, EPOLLOUT := true } (.ok ()),
    .epollCtlAdd process.outFd { fd := process.outFd, EPOLLIN := true } (.ok ())]

def Event.adds : Event → Bool
  | .epollCtlAdd _ _ (.ok ()) => true
  | _ => false

theorem drops_le_adds (h : Throughout Event.Orderly [] tr) :
    tr.countP Event.drops + (registered tr).card ≤ tr.countP Event.adds := by
  induction tr using List.reverseRecOn with
  | nil => simp [registered]
  | append_singleton tr e ih =>
    obtain ⟨hbefore, hlast⟩ := (throughout_append [] tr [e]).mp h
    have hle := ih hbefore
    rw [List.countP_append, List.countP_append, List.countP_singleton, List.countP_singleton,
      registered_snoc]
    have hneutral : e.drops = false → e.adds = false → e.register (registered tr) = registered tr →
        tr.countP Event.drops + (if e.drops = true then 1 else 0) +
          (e.register (registered tr)).card ≤
            tr.countP Event.adds + if e.adds = true then 1 else 0 := by
      intro hdrops hadds hregister
      rw [hdrops, hadds, hregister]
      simpa using hle
    cases e with
    | epollCtlAdd fd ev r =>
      cases r with
      | error e => exact hneutral rfl rfl rfl
      | ok u =>
        have hcard := Finset.card_insert_le fd (registered tr)
        simp only [Event.drops, Event.adds, Event.register]
        simp
        omega
    | epollCtlDel fd r =>
      cases r with
      | error e => exact hneutral rfl rfl rfl
      | ok u =>
        have hcard := Finset.card_erase_add_one (show fd ∈ registered tr from hlast.1.1)
        simp only [Event.drops, Event.adds, Event.register]
        simp
        omega
    | _ => exact hneutral rfl rfl rfl

theorem added_of_registered {fd : Fd} (hfd : fd ∈ registered tr) :
    ∃ ev, .epollCtlAdd fd ev (.ok ()) ∈ tr := by
  induction tr using List.reverseRecOn with
  | nil => simp [registered] at hfd
  | append_singleton tr e ih =>
    have hkept : fd ∈ registered tr → ∃ ev, .epollCtlAdd fd ev (.ok ()) ∈ tr ++ [e] := by
      intro h
      obtain ⟨ev, hmem⟩ := ih h
      exact ⟨ev, List.mem_append_left _ hmem⟩
    rw [registered_snoc] at hfd
    unfold Event.register at hfd
    split at hfd
    · rename_i fd' ev
      rcases Finset.mem_insert.mp hfd with rfl | h
      · exact ⟨ev, by simp⟩
      · exact hkept h
    · exact hkept (Finset.mem_of_mem_erase hfd)
    · exact hkept hfd

theorem productive_le (tr : List Event) : tr.countP Event.productive ≤
    tr.countP Event.writes + tr.countP Event.reads + tr.countP Event.drops := by
  induction tr with
  | nil => simp
  | cons e tr ih =>
    have hone (b c d : Bool) : (if (b || c || d) = true then 1 else 0) ≤
        (if b = true then 1 else 0) + (if c = true then 1 else 0) + if d = true then 1 else 0 := by
      revert b c d
      decide
    have he : (if e.productive = true then 1 else 0) ≤ _ := hone e.writes e.reads e.drops
    simp only [List.countP_cons]
    omega

end Unistd

namespace Solution

/-- Once it has set its epoll instance up, `communicate` changes it only by dropping. -/
def settledIn (lib : TokenizerLibrary) : Contract Event (Solution lib) Failure where
  invariant _ := True
  allowed e := ¬ e.Opens
  fatal _ := False
  error _ := True

theorem settledIn_handling : Handling (settledIn lib) where
  deregisters _ _ := id
  writes _ _ _ _ := id
  reads _ _ _ := id
  drained _ _ _ := trivial
  absorbed _ _ _ _ _ := trivial
  chokes _ _ _ _ _ _ _ := trivial
  unexpected := trivial
  throws _ := trivial

theorem settledIn_poll (untilPoint : Int) (b : List EpollEvent × Int) :
    (poll untilPoint b : Calls (Solution lib) _).Meets (settledIn lib) := by
  refine Meets.loop (fun b ↦ ?_) b
  obtain ⟨events, now⟩ := b
  dsimp only
  split
  · refine (meets_ask (fun _ ↦ id)).bind (fun r ↦ settledIn_handling.meets_checked _ r) |>.bind ?_
    exact fun _ ↦ (meets_ask (fun _ ↦ id)).bind (fun _ ↦ meets_pure _)
  · exact meets_pure _

theorem settledIn_round (untilPoint : Int) (u : Unit) :
    (round untilPoint u : Calls (Solution lib) _).Meets (settledIn lib) := by
  refine meets_get_bind (fun sol _ ↦ ?_)
  split
  · exact meets_pure _
  · refine (meets_ask (fun _ ↦ id)).bind (fun now ↦ (settledIn_poll untilPoint _).bind (fun b ↦ ?_))
    obtain ⟨events, now⟩ := b
    dsimp only
    split
    · exact meets_pure _
    · refine (settledIn_handling.meets_handleEvents events).bind (fun status ↦ ?_)
      split <;> exact meets_pure _

theorem communicate_opens (sol : Solution lib) : communicate.Ensures sol (fun tr _ _ ↦
    (∃ r, .epollWait r ∈ tr) → ∃ start rest, tr = opening sol.process start ++ rest ∧
      ∀ e ∈ rest, ¬ e.Opens) := by
  simp only [communicate, clockNow, epollCreate1, epollCtlAdd, bind_assoc, ensures_get_bind,
    ensures_assert_bind, ensures_ask_bind, ensures_checked_bind]
  refine ⟨fun _ ↦ ⟨by simp, fun m ↦ ⟨by simp, fun m₁ ↦ ⟨fun _ h₁ ↦ ⟨by simp, fun m₂ ↦ ⟨fun _ h₂ ↦
    ⟨by simp, fun m₃ ↦ ⟨fun _ h₃ ↦ ?_, by simp⟩⟩, by simp⟩⟩, by simp⟩⟩⟩, by simp⟩
  rw [h₁, h₂, h₃]
  refine (Meets.loop (settledIn_round _) () sol trivial).mono (fun rest _ _ h _ ↦ ?_)
  exact ⟨m.now, rest, rfl, h.2.1⟩

end Solution

namespace Side

theorem Step.registered_move {act : Act} (h : Step capacities process side (.inr act) side') :
    side'.registered = side.registered := by
  cases h <;> rfl

theorem registered_opening {start : Int} {r : Except Errno Unit}
    (hp : Path (Step capacities process) side steps side')
    (hcalls : calls steps = [.now start, .epollCreate1 r]) : side'.registered = ∅ := by
  have hthrough := hp.throughout (P := fun _ _ ↦ True) (Q := fun _ ↦ True)
    (fun past w ↦ ∀ r, past.getLast? = some (Event.epollCreate1 r) → w.registered = ∅) []
    (fun _ _ ↦ trivial) (by simp)
    (fun past w m w' hs hI r hr ↦ (hs.registered_move).trans (hI r hr)) ?_
  · exact hthrough.2 r (by rw [hcalls]; rfl)
  · intro past w e w' hs _ _
    refine ⟨trivial, fun r hr ↦ ?_⟩
    rw [List.getLast?_concat] at hr
    cases hr
    cases hs with
    | created => rfl
    | elsewhere he => exact he.elim

theorem Step.registered (h : Step capacities process side (.inl e) side')
    (he : ∀ r, e ≠ .epollCreate1 r) (hI : side.registered = Unistd.registered past) :
    e.Permitted process past ∧ side'.registered = Unistd.registered (past ++ [e]) := by
  rw [registered_snoc]
  cases h with
  | created => exact absurd rfl (he _)
  | added hfd =>
    rw [hI] at hfd
    exact ⟨hfd, congrArg (insert _) hI⟩
  | removed hfd => exact ⟨trivial, congrArg (Finset.erase · _) hI⟩
  | removeRefused hfd =>
    rw [hI] at hfd
    exact ⟨hfd, hI⟩
  | waited hreports =>
    refine ⟨⟨hreports.nodup, fun ev hmem ↦ ⟨?_, fun hfd hup ↦ ?_⟩⟩, hI⟩
    · rw [← hI]
      exact hreports.registered ev hmem
    · exact (hreports.stdin ev hmem hfd).2.2 hup
  | elsewhere helse => cases e <;> first | exact ⟨trivial, hI⟩ | exact helse.elim
  | _ => exact ⟨trivial, hI⟩

/-- What a wait has reported is still so as long as nothing was transferred. -/
structure Holds (capacities : Capacities) (process : Process) (past : List Event) (side : Side W) :
    Prop where
  room : ready (·.EPOLLOUT) process.inFd past = true → side.stdin.length < capacities.stdin
  data : ready (·.EPOLLIN) process.outFd past = true → side.stdout ≠ []

theorem Holds.move {act : Act} (h : Step capacities process side (.inr act) side')
    (hI : Holds capacities process past side) : Holds capacities process past side' := by
  cases h with
  | take hdoes hstdin =>
    refine ⟨fun hready ↦ ?_, hI.data⟩
    have hroom := hI.room hready
    rw [hstdin, List.length_cons] at hroom
    exact Nat.lt_of_succ_lt hroom
  | give => exact ⟨hI.room, fun _ ↦ by simp⟩
  | think => exact ⟨hI.room, hI.data⟩

theorem Holds.snoc (hI : Holds capacities process past side) (e : Event)
    (he : ∀ events, e ≠ .epollWait (.ok events)) :
    Holds capacities process (past ++ [e]) side := by
  have hsub (bit : EpollEvent → Bool) (fd : Fd) (h : ready bit fd (past ++ [e]) = true) :
      ready bit fd past = true := by
    rw [ready_snoc] at h
    unfold Event.readies at h
    split at h
    · exact absurd rfl (he _)
    · exact (Bool.and_eq_true_iff.mp h).2
    · exact (Bool.and_eq_true_iff.mp h).2
    · exact h
  exact ⟨fun h ↦ hI.room (hsub _ _ h), fun h ↦ hI.data (hsub _ _ h)⟩

theorem Holds.reported {events : List EpollEvent} (h : side.Reports capacities process events)
    (past : List Event) : Holds capacities process (past ++ [.epollWait (.ok events)]) side := by
  constructor
  · intro hready
    rw [ready_snoc] at hready
    obtain ⟨ev, hmem, hev⟩ := List.any_eq_true.mp hready
    obtain ⟨hfd, hbit⟩ := Bool.and_eq_true_iff.mp hev
    exact (h.stdin ev hmem (by simpa using hfd)).1.mp hbit
  · intro hready
    rw [ready_snoc] at hready
    obtain ⟨ev, hmem, hev⟩ := List.any_eq_true.mp hready
    obtain ⟨hfd, hbit⟩ := Bool.and_eq_true_iff.mp hev
    exact (h.stdout ev hmem (by simpa using hfd)).1.mp hbit

theorem ready_transferred {bit : EpollEvent → Bool} {fd : Fd}
    (he : (∃ r, e = .read fd r) ∨ ∃ data r, e = .write fd data r) :
    ready bit fd (past ++ [e]) = false := by
  rw [ready_snoc]
  rcases he with ⟨r, rfl⟩ | ⟨data, r, rfl⟩ <;> simp [Event.readies]

theorem Step.prompt (h : Step capacities process side (.inl e) side')
    (haddress : e.Addresses process) (hI : Holds capacities process past side)
    (hpermitted : e.Permitted process past)
    (hboth : ∀ fd ∈ Unistd.registered past, fd = process.inFd ∨ fd = process.outFd) :
    e.Prompt process past := by
  cases h with
  | full _ hfull =>
    refine Bool.eq_false_iff.mpr (fun hready ↦ ?_)
    exact absurd (hI.room hready) (Nat.not_lt.mpr hfull)
  | readChunk hn hle =>
    rename_i n
    cases hchunk : side.stdout.take n with
    | nil =>
      have hlen := congrArg List.length hchunk
      rw [List.length_take, List.length_nil] at hlen
      omega
    | cons c rest => exact trivial
  | readNothing _ hempty =>
    refine Bool.eq_false_iff.mpr (fun hready ↦ ?_)
    exact hI.data hready hempty
  | readEnd _ hempty =>
    refine Bool.eq_false_iff.mpr (fun hready ↦ ?_)
    exact hI.data hready hempty
  | waited hreports => exact fun ev hmem ↦ hboth _ (hpermitted.2 ev hmem).1
  | elsewhere helse =>
    cases e with
    | read fd r => exact absurd haddress helse
    | write fd data r => exact absurd haddress helse
    | _ => first | exact trivial | exact helse.elim
  | _ => exact trivial

theorem Step.holds (h : Step capacities process side (.inl e) side')
    (hI : Holds capacities process past side) : Holds capacities process (past ++ [e]) side' := by
  cases h with
  | wrote =>
    refine ⟨fun hready ↦ ?_, (hI.snoc _ (by simp)).data⟩
    rw [ready_transferred (.inr ⟨_, _, rfl⟩)] at hready
    cases hready
  | readChunk =>
    refine ⟨(hI.snoc _ (by simp)).room, fun hready ↦ ?_⟩
    rw [ready_transferred (.inl ⟨_, rfl⟩)] at hready
    cases hready
  | created => exact ⟨(hI.snoc _ (by simp)).room, (hI.snoc _ (by simp)).data⟩
  | added => exact ⟨(hI.snoc _ (by simp)).room, (hI.snoc _ (by simp)).data⟩
  | removed => exact ⟨(hI.snoc _ (by simp)).room, (hI.snoc _ (by simp)).data⟩
  | waited hreports => exact Holds.reported hreports past
  | elsewhere helse =>
    refine hI.snoc _ (fun events heq ↦ ?_)
    rw [heq] at helse
    exact helse
  | _ => exact hI.snoc _ (by simp)

theorem Step.listens_move {act : Act} (h : Step capacities process side (.inr act) side')
    (hlistens : W.listens side'.state) : W.listens side.state := by
  cases h with
  | take hdoes => exact W.listens_before _ _ _ hdoes hlistens
  | give hdoes => exact W.listens_before _ _ _ hdoes hlistens
  | think hdoes => exact W.listens_before _ _ _ hdoes hlistens

theorem Step.deaf (h : Step capacities process side (.inl e) side')
    (hI : HangupReported process.inFd past → ¬ W.listens side.state)
    (hup : HangupReported process.inFd (past ++ [e])) : ¬ W.listens side'.state := by
  rw [h.state_call]
  obtain ⟨events, ev, hmem, hev, hfd, hbit⟩ := hup
  rcases List.mem_append.mp hmem with hbefore | hlast
  · exact hI ⟨events, ev, hbefore, hev, hfd, hbit⟩
  · rw [List.mem_singleton] at hlast
    subst hlast
    cases h with
    | waited hreports => exact (hreports.stdin ev hev hfd).2.1.mp hbit
    | elsewhere helse => exact helse.elim

theorem deaf_of_hangup (hp : Path (Step capacities process) side steps side')
    (hup : HangupReported process.inFd (calls steps)) : ¬ W.listens side'.state := by
  have hthrough := hp.throughout (P := fun _ _ ↦ True) (Q := fun _ ↦ True)
    (fun past side ↦ HangupReported process.inFd past → ¬ W.listens side.state) []
    (fun _ _ ↦ trivial) ?_ (fun past w m w' hs hI hup hlistens ↦ hI hup ?_) ?_
  · exact hthrough.2 hup
  · rintro ⟨events, ev, hmem, -⟩
    cases hmem
  · exact hs.listens_move hlistens
  · exact fun past w e w' hs _ hI ↦ ⟨trivial, hs.deaf hI⟩

theorem reads_le (hp : Path (Step capacities process) side steps side')
    (haddresses : ∀ e ∈ calls steps, e.Addresses process) :
    (calls steps).countP Event.reads + side'.stdout.length ≤
      side.stdout.length + (moves steps).countP Act.gives := by
  induction hp with
  | nil => simp [calls, moves]
  | @cons s t u step steps hs h ih =>
    cases step with
    | inr act =>
      have hle := ih haddresses
      rw [calls_cons_move, moves_cons_move, List.countP_cons]
      cases hs with
      | give =>
        rw [List.length_append, List.length_singleton] at hle
        simp only [Act.gives, if_true]
        exact hle.trans (by omega)
      | take => simpa [Act.gives] using hle
      | think => simpa [Act.gives] using hle
    | inl e =>
      rw [calls_cons_call] at haddresses ⊢
      obtain ⟨haddress, hrest⟩ := List.forall_mem_cons.mp haddresses
      have hle := ih hrest
      rw [moves_cons_call, List.countP_cons]
      -- whatever else is called takes nothing out of the pipe
      have hother (hno : e.reads = false) (hout : t.stdout = s.stdout) :
          (calls steps).countP Event.reads + (if e.reads = true then 1 else 0) +
            u.stdout.length ≤ s.stdout.length + (moves steps).countP Act.gives := by
        rw [hout] at hle
        rw [hno]
        exact hle
      cases hs with
      | readChunk hn hlen =>
        rw [List.length_drop] at hle
        split <;> omega
      | elsewhere helse =>
        refine hother ?_ rfl
        cases e with
        | read fd r => exact absurd haddress helse
        | _ => rfl
      | _ => exact hother rfl rfl

/-- Where nothing is ready, the program can go on by itself, or waits for input in vain. -/
theorem Reports.quiet (h : side.Reports capacities process [])
    (hout : process.outFd ∈ side.registered) :
    side.stdout = [] ∧ ((∃ act side'', Step capacities process side (.inr act) side'') ∨
      side.stdin = [] ∧ ∀ c, ∃ s, W.does side.state (.take c) s) := by
  have hsilent : ¬ (side.stdout ≠ [] ∨ ¬ W.speaks side.state) := by
    intro hready
    obtain ⟨ev, hmem, -⟩ := h.stdout_reported hout hready
    cases hmem
  obtain ⟨hempty, hspeaks⟩ := not_or.mp hsilent
  rw [not_not] at hempty hspeaks
  refine ⟨hempty, ?_⟩
  rcases W.willing side.state (.inr hspeaks) with ⟨s, hthink⟩ | ⟨c, s, hgive⟩ | htake
  · exact .inl ⟨_, _, .think hthink⟩
  · refine .inl ⟨_, _, .give hgive ?_⟩
    rw [hempty]
    exact capacities.stdout_pos
  · cases hstdin : side.stdin with
    | nil => exact .inr ⟨rfl, htake⟩
    | cons c rest =>
      obtain ⟨s, hdoes⟩ := htake c
      exact .inl ⟨_, _, .take hdoes hstdin⟩

theorem Reports.unwatched (h : side.Reports capacities process []) (hstdin : side.stdin = []) :
    process.inFd ∉ side.registered := by
  intro hin
  obtain ⟨ev, hmem, -⟩ := h.stdin_reported hin (.inl (by simpa [hstdin] using capacities.stdin_pos))
  cases hmem

end Side

namespace Solution

section World

variable (hx : communicate.Executes sol tr o sol')
  (hp : Path (Side.Step capacities sol.process) side steps side') (htr : calls steps = tr)
include hx hp htr

/-- A side of a solution keeps the contract of epoll towards `communicate`. -/
theorem communicate_permitted (hwait : ∃ r, .epollWait r ∈ tr) :
    Throughout (Event.Permitted sol.process) [] tr ∧ side'.registered = Unistd.registered tr := by
  obtain ⟨start, rest, heq, hrest⟩ := communicate_opens sol _ _ _ hx hwait
  have hsplit : calls steps = [.now start, .epollCreate1 (.ok ())] ++
      (.epollCtlAdd sol.process.inFd { fd := sol.process.inFd, EPOLLOUT := true } (.ok ()) ::
        .epollCtlAdd sol.process.outFd { fd := sol.process.outFd, EPOLLIN := true } (.ok ()) ::
          rest) := htr.trans heq
  obtain ⟨front, back, middle, rfl, hfront, hback, hpfront, hpback⟩ := hp.split_calls hsplit
  have hthrough := hpback.throughout (P := Event.Permitted sol.process)
    (Q := fun e ↦ ∀ r, e ≠ .epollCreate1 r)
    (fun past side ↦ side.registered = Unistd.registered past)
    [.now start, .epollCreate1 (.ok ())] ?_
    (Side.registered_opening hpfront hfront)
    (fun past w m w' hs hI ↦ (hs.registered_move).trans hI)
    (fun past w e w' hs he hI ↦ hs.registered he hI)
  · rw [hback] at hthrough
    rw [← htr, hsplit]
    exact ⟨⟨trivial, trivial, hthrough.1⟩, hthrough.2⟩
  · rw [hback]
    have hcreates : ∀ e ∈ rest, ∀ r, e ≠ .epollCreate1 r := by
      rintro e hmem r rfl
      exact hrest _ hmem trivial
    simpa using hcreates

theorem communicate_prompt (hwait : ∃ r, .epollWait r ∈ tr) :
    Throughout (Event.Prompt sol.process) [] tr := by
  obtain ⟨hpermitted, -⟩ := communicate_permitted hx hp htr hwait
  have haddresses := path_addresses (communicate_spec sol _ _ _ hx).1
  rw [← htr] at haddresses
  have hthrough := hp.throughout (P := fun past e ↦ e.Permitted sol.process past →
      (∀ fd ∈ Unistd.registered past, fd = sol.process.inFd ∨ fd = sol.process.outFd) →
        e.Prompt sol.process past)
    (Side.Holds capacities sol.process) [] haddresses ⟨(fun h ↦ by cases h), (fun h ↦ by cases h)⟩
    (fun _ _ _ _ hs hI ↦ hI.move hs)
    (fun _ _ _ _ hs haddress hI ↦ ⟨hs.prompt haddress hI, hs.holds hI⟩)
  obtain ⟨start, rest, heq, hrest⟩ := communicate_opens sol _ _ _ hx hwait
  refine throughout_iff.mpr (fun before e after hsplit ↦ ?_)
  rw [htr] at hthrough
  refine throughout_iff.mp hthrough.1 before e after hsplit
    (throughout_iff.mp hpermitted before e after hsplit) (fun fd hfd ↦ ?_)
  obtain ⟨ev, hmem⟩ := added_of_registered hfd
  have hadded : .epollCtlAdd fd ev (.ok ()) ∈ opening sol.process start ++ rest := by
    rw [← heq, hsplit]
    exact List.mem_append_left _ hmem
  rcases List.mem_append.mp hadded with h | h
  · simp only [opening, List.mem_cons, List.not_mem_nil, or_false, reduceCtorEq, false_or,
      Event.epollCtlAdd.injEq] at h
    exact h.imp And.left And.left
  · exact absurd trivial (hrest _ h)

end World

/-- Where a wait has reported nothing, the solution can go on by itself, or it has read all
that was sent to it and said all it had to say. -/
theorem idle_wait_is_due (hx : communicate.Executes sol tr o sol')
    (hp : Path (Side.Step capacities sol.process) side steps side') (htr : calls steps = tr)
    (hidle : steps.getLast? = some (.inl (.epollWait (.ok [])))) :
    (∃ act side'', Side.Step capacities sol.process side' (.inr act) side'') ∨
      side'.stdin = [] ∧ side'.stdout = [] ∧ sol'.inbuf = [] ∧
        ∀ c, ∃ s, W.does side'.state (.take c) s := by
  obtain ⟨front, hsteps⟩ := List.getLast?_eq_some_iff.mp hidle
  have hend : tr = calls front ++ [.epollWait (.ok [])] := by rw [← htr, hsteps, calls_call]
  have hwait : ∃ r, .epollWait r ∈ tr := ⟨.ok [], by simp [hend]⟩
  obtain ⟨hpermitted, hregistered⟩ := communicate_permitted hx hp htr hwait
  obtain ⟨-, hcontinue⟩ := communicate_awake hx (communicate_prompt hx hp htr hwait)
  obtain ⟨-, hentered, -⟩ := keeps_communicate sol tr o sol' hx hpermitted
  obtain ⟨start, rest, heq, -⟩ := communicate_opens sol _ _ _ hx hwait
  have hreports : side'.Reports capacities sol.process [] := by
    rw [hsteps] at hp
    obtain ⟨side₁, -, hlast⟩ := hp.split
    cases hlast with
    | cons hs hnil =>
      cases hnil
      cases hs with
      | waited h => exact h
      | elsewhere helse => exact helse.elim
  have hstatus : sol'.tokenizerStatus = .CONTINUE := by
    apply hcontinue
    rw [hend, lastIsWait_snoc]
    exact ⟨_, rfl⟩
  have hout := hentered.reading
    ⟨{ fd := sol.process.outFd, EPOLLIN := true }, by simp [heq, opening]⟩ hstatus
  have hin := hentered.writing
    ⟨{ fd := sol.process.inFd, EPOLLOUT := true }, by simp [heq, opening]⟩
  rw [List.nil_append, ← hregistered] at hout hin
  obtain ⟨hstdout, hnext⟩ := hreports.quiet hout
  refine hnext.imp_right (fun hstarving ↦ ?_)
  obtain ⟨hstdin, htake⟩ := hstarving
  refine ⟨hstdin, hstdout, ?_, htake⟩
  rcases hin with hin | hempty | hup
  · exact absurd hin (hreports.unwatched hstdin)
  · exact hempty
  · obtain ⟨s, hdoes⟩ := htake 0
    rw [← htr] at hup
    exact absurd (W.take_listens _ _ _ hdoes) (Side.deaf_of_hangup hp hup)

/-- Between a wait that reports something and the next one, bytes are moved or a descriptor is
dropped. -/
theorem productive_between_waits {before mid after : List Event} {events : List EpollEvent}
    {r : Except Errno (List EpollEvent)} (hx : communicate.Executes sol tr o sol')
    (hp : Path (Side.Step capacities sol.process) side steps side') (htr : calls steps = tr)
    (hne : events ≠ [])
    (heq : tr = before ++ .epollWait (.ok events) :: mid ++ .epollWait r :: after) :
    ∃ e ∈ mid, e.productive = true := by
  have hwait : ∃ r, .epollWait r ∈ tr := ⟨r, by simp [heq]⟩
  obtain ⟨hawake, -⟩ := communicate_awake hx (communicate_prompt hx hp htr hwait)
  rw [heq, List.append_assoc, List.cons_append, List.append_cons, throughout_append] at hawake
  refine productive_before_wait ?_ hawake.2
  rw [List.nil_append, owing_snoc]
  obtain ⟨ev, rest, rfl⟩ := List.exists_cons_of_ne_nil hne
  rfl

theorem writes_le (h : Path Step sol tr sol') :
    tr.countP Event.writes + sol'.inbuf.length ≤ sol.inbuf.length := by
  induction h with
  | nil => simp
  | @cons s t _ e tr hs h ih =>
    rw [List.countP_cons]
    cases hs with
    | quiet he =>
      have hno : e.writes = false := by cases e <;> first | rfl | exact he.elim
      simpa [hno] using ih
    | wrote hcont hin hpos hsize =>
      rw [List.length_take] at hsize
      rw [List.length_drop] at ih
      simp only [Event.writes, if_true]
      omega
    | writeFailed => simpa [Event.writes] using ih
    | readFailed => simpa [Event.writes] using ih
    | readNothing => simpa [Event.writes] using ih
    | readChunk => simpa [Event.writes] using ih

theorem wakes_bounded (hx : communicate.Executes sol tr o sol')
    (hp : Path (Side.Step capacities sol.process) side steps side') (htr : calls steps = tr) :
    tr.countP Event.wakes ≤
      sol.inbuf.length + side.stdout.length + (moves steps).countP Act.gives + 3 := by
  by_cases hwait : ∃ r, .epollWait r ∈ tr
  · obtain ⟨hpermitted, -⟩ := communicate_permitted hx hp htr hwait
    obtain ⟨hawake, -⟩ := communicate_awake hx (communicate_prompt hx hp htr hwait)
    obtain ⟨horderly, -⟩ := keeps_communicate sol tr o sol' hx hpermitted
    obtain ⟨start, rest, heq, hrest⟩ := communicate_opens sol _ _ _ hx hwait
    have hpath := (communicate_spec sol _ _ _ hx).1
    have haddresses := path_addresses hpath
    have hwakes := wakes_le_productive hawake
    have hproductive := productive_le tr
    have hwrites := writes_le hpath
    have hreads := Side.reads_le hp (by rwa [htr])
    have hdrops := drops_le_adds horderly
    have hadds : tr.countP Event.adds = 2 := by
      have hnone : rest.countP Event.adds = 0 := by
        refine List.countP_eq_zero.mpr (fun e hmem hadds ↦ hrest e hmem ?_)
        cases e <;> trivial
      rw [heq, List.countP_append, hnone]
      rfl
    have howing := Bool.toNat_le (owing tr)
    rw [htr] at hreads
    omega
  · have hnone : tr.countP Event.wakes = 0 := by
      refine List.countP_eq_zero.mpr (fun e hmem hwakes ↦ hwait ?_)
      cases e with
      | epollWait r => exact ⟨r, hmem⟩
      | _ => cases hwakes
    omega

def drainedRun : Execution Event (Solution SplitChar.library) Failure Result.Status :=
  communicate.run waitingForLine [{}, {}, {}, {}, {},
    { epollWait := .ok [{ fd := 4, EPOLLOUT := true }] }, {}, { write := .ok 0 }, {}, {}, {}]

theorem drainedRun_trace : drainedRun.trace = opening waitingForLine.process 0 ++ [.now 0,
    .epollWait (.ok [{ fd := 4, EPOLLOUT := true }]), .now 0, .write 4 [120] (.ok 1),
    .epollCtlDel 4 (.ok ()), .now 0, .epollWait (.ok [])] := rfl

theorem drainedRun_path : Path (Side.Step ⟨1, 1, Nat.one_pos, Nat.one_pos⟩ waitingForLine.process)
    ({ state := none } : Side Worker.echo) (drainedRun.trace.map .inl)
    { state := none, stdin := [120], registered := {5} } := by
  have hroom : Side.Reports ⟨1, 1, Nat.one_pos, Nat.one_pos⟩ waitingForLine.process
      ({ state := none, registered := {5, 4} } : Side Worker.echo)
        [{ fd := 4, EPOLLOUT := true }] := by
    constructor <;> simp [waitingForLine, Worker.echo]
  have hquiet : Side.Reports ⟨1, 1, Nat.one_pos, Nat.one_pos⟩ waitingForLine.process
      ({ state := none, stdin := [120], registered := {5} } : Side Worker.echo) [] := by
    constructor <;> simp [waitingForLine, Worker.echo]
  rw [drainedRun_trace]
  refine .cons (.elsewhere trivial) <| .cons .created <| .cons (.added (by decide)) <|
    .cons (.added (by decide)) <| .cons (.elsewhere trivial) <| .cons (.waited hroom) <|
      .cons (.elsewhere trivial) <| .cons (.wrote trivial Nat.one_pos le_rfl le_rfl) <|
        .cons (.removed (by decide)) <| .cons (.elsewhere trivial) <| .one (.waited hquiet)

theorem idle_wait_is_due_drained : ∃ act side'',
    Side.Step ⟨1, 1, Nat.one_pos, Nat.one_pos⟩ waitingForLine.process
      ({ state := none, stdin := [120], registered := {5} } : Side Worker.echo)
        (.inr act) side'' := by
  have hrun : communicate.Executes waitingForLine drainedRun.trace drainedRun.outcome
      drainedRun.state := executes_run _ _ _
  have hdue := idle_wait_is_due hrun drainedRun_path (by rfl) (by rfl)
  exact hdue.resolve_right (fun h ↦ by cases h.1)

theorem productive_between_waits_drained :
    ∃ e ∈ [Event.now 0, .write 4 [120] (.ok 1), .epollCtlDel 4 (.ok ()), .now 0],
      e.productive = true := by
  have hrun : communicate.Executes waitingForLine drainedRun.trace drainedRun.outcome
      drainedRun.state := executes_run _ _ _
  have hsplit : drainedRun.trace = (opening waitingForLine.process 0 ++ [.now 0]) ++
      .epollWait (.ok [{ fd := 4, EPOLLOUT := true }]) ::
        [.now 0, .write 4 [120] (.ok 1), .epollCtlDel 4 (.ok ()), .now 0] ++
          .epollWait (.ok []) :: [] := drainedRun_trace
  exact productive_between_waits hrun drainedRun_path (by rfl) (List.cons_ne_nil _ _) hsplit

theorem wakes_bounded_drained : drainedRun.trace.countP Event.wakes ≤ 1 + 0 + 0 + 3 := by
  have hrun : communicate.Executes waitingForLine drainedRun.trace drainedRun.outcome
      drainedRun.state := executes_run _ _ _
  exact wakes_bounded hrun drainedRun_path (by rfl)

end Solution

end FlowctlGame
