import FlowctlGame.Interaction.History
import FlowctlGame.TokenStream

namespace FlowctlGame

open Interaction Program Unistd Broker

variable {lib : TokenizerLibrary} {S : Stream UInt8} {fd : Fd} {e : Event} {tr tr' : List Event}
  {p p' q : ℕ} {sol sol' : Solution lib} {buf : Bytes}

theorem Delivery.unique (h : Delivery S fd p e q) (h' : Delivery S fd p e p') : q = p' := by
  cases h with
  | chunk hn hle hslice =>
    have hbuf : _ ≠ [] := fun hnil ↦ hn.ne' (Stream.slice_eq_nil.mp (hslice.symm.trans hnil))
    obtain ⟨n, -, -, hslice', rfl⟩ := h'.read_chunk hbuf
    have hlen := congrArg List.length (hslice.symm.trans hslice')
    simpa using hlen
  | eof => exact h'.read_nothing.symm
  | failed =>
    cases h' with
    | failed => rfl
    | other => rfl
  | waited => exact (h'.unread (fun _ h ↦ by cases h)).symm
  | other he =>
    refine (h'.unread (fun r hr ↦ ?_)).symm
    rw [hr] at he
    simp [Event.informs] at he

theorem delivery_unique (h : Path (Delivery S fd) p tr q) (h' : Path (Delivery S fd) p tr p') :
    q = p' := by
  induction h with
  | nil =>
    cases h'
    rfl
  | cons hd h ih =>
    cases h' with
    | cons hd' h' =>
      rw [hd'.unique hd] at h'
      exact ih h'

def Drained (S : Stream UInt8) (fd : Fd) (tr : List Event) : Prop :=
  ∃ p : ℕ, Path (Delivery S fd) 0 tr p ∧ S.length = p

/-- The event is not a read of data from `fd`. -/
def Unistd.Event.Barren (fd : Fd) (e : Event) : Prop := ∀ buf, e = .read fd (.ok buf) → buf = []

theorem Delivery.barren (h : Delivery S fd p e q) (hp : S.length = p) : e.Barren fd := by
  intro buf he
  subst he
  by_contra hbuf
  obtain ⟨n, hn, hle, -, -⟩ := h.read_chunk hbuf
  rw [hp] at hle
  have hle' : p + n ≤ p := by exact_mod_cast hle
  omega

theorem delivery_at_end (h : Path (Delivery S fd) p tr q) (hp : S.length = p) : S.length = q := by
  have hle := delivery_le h
  have hge := delivery_le_length h hp.ge
  rw [hp] at hge ⊢
  have hge' : q ≤ p := by exact_mod_cast hge
  have heq : p = q := by omega
  rw [heq]

theorem delivery_barren (h : Path (Delivery S fd) p tr q) (hp : S.length = p) :
    ∀ e ∈ tr, e.Barren fd := by
  induction h with
  | nil => exact List.forall_mem_nil _
  | cons hd _ ih =>
    exact List.forall_mem_cons.mpr ⟨hd.barren hp, ih (delivery_at_end (.one hd) hp)⟩

/-- The process has been killed, as far as the killer says. -/
def Killed (process : Process) (tr : List Event) : Prop :=
  ∃ status, .killer .TERMINATE process.id (.ok status) ∈ tr

theorem killed_append {process : Process} (h : ∀ status,
    .killer .TERMINATE process.id (.ok status) ∉ tr') :
    Killed process (tr ++ tr') ↔ Killed process tr := by
  simp only [Killed, List.mem_append, h, or_false]

namespace Solution

theorem Step.barren (hs : Step sol e sol') (he : e.Barren sol.process.outFd) :
    ∃ inbuf, sol' = { sol with inbuf := inbuf } := by
  cases hs with
  | quiet => exact ⟨sol.inbuf, rfl⟩
  | writeFailed => exact ⟨sol.inbuf, rfl⟩
  | wrote => exact ⟨_, rfl⟩
  | readFailed => exact ⟨sol.inbuf, rfl⟩
  | readNothing => exact ⟨sol.inbuf, rfl⟩
  | readChunk hs hbuf => exact absurd (he _ rfl) hbuf

theorem path_barren (hs : Path Step sol tr sol') (h : ∀ e ∈ tr, e.Barren sol.process.outFd) :
    ∃ inbuf, sol' = { sol with inbuf := inbuf } := by
  induction hs with
  | nil s => exact ⟨s.inbuf, rfl⟩
  | cons hstep _ ih =>
    obtain ⟨he, hrest⟩ := List.forall_mem_cons.mp h
    obtain ⟨inbuf, rfl⟩ := hstep.barren he
    obtain ⟨inbuf', rfl⟩ := ih hrest
    exact ⟨inbuf', rfl⟩

def Mute (sol : Solution lib) : Prop :=
  sol.outbuf = [] ∧ (sol.tokenizer ≠ none → sol.tokenizerStatus = .CONTINUE)

theorem mute_dropped (sol : Solution lib) : sol.dropped.Mute :=
  ⟨rfl, fun h ↦ absurd rfl h⟩

variable {process : Process} {muted : Prop} {past : List Event} {α : Type}

/-- A solution that is mute stays so while no more data are read, and one that is killed is mute
in the end. -/
def hushing (lib : TokenizerLibrary) (process : Process) (muted : Prop) :
    Regime Event (Solution lib) Failure where
  rely _ e := muted → e.Barren process.outFd
  guarantee _ _ := True
  invariant past sol := sol.process = process ∧ (muted ∨ Killed process past → sol.Mute)
  error _ := True

abbrev Hushes (m : Calls (Solution lib) α) (process : Process) (muted : Prop)
    (past : List Event) (sol : Solution lib) (Q : α → List Event → Solution lib → Prop) : Prop :=
  m.Keeps (hushing lib process muted) past sol Q

theorem hushing_snoc (h : (hushing lib process muted).invariant past sol)
    (he : ∀ status, e ≠ .killer .TERMINATE process.id (.ok status)) :
    (hushing lib process muted).invariant (past ++ [e]) sol := by
  refine ⟨h.1, fun hx ↦ h.2 (hx.imp_right (killed_append (fun status hmem ↦ ?_)).mp)⟩
  exact he status (List.mem_singleton.mp hmem).symm

theorem hushes_assert {condition : Prop} [Decidable condition] {msg : String}
    {Q : Unit → List Event → Solution lib → Prop}
    (h : (hushing lib process muted).invariant past sol) (hQ : condition → Q () past sol) :
    Hushes (assert condition msg) process muted past sol Q := by
  unfold assert
  split
  · exact keeps_pure h (hQ ‹_›)
  · exact keeps_raise h trivial

theorem hushes_request {act : Killer.Act} (hact : act ≠ .TERMINATE) {id : Killer.Id}
    (h : (hushing lib process muted).invariant past sol) (hk : Killed process past → muted) :
    Hushes (killerRequest act id) process muted past sol (fun _ past' sol' ↦
      sol' = sol ∧ (Killed process past' → muted)) := by
  refine keeps_ask_bind h (fun r _ ↦ ⟨trivial, ?_⟩)
  have hne (status : Killer.Status) :
      Event.killer act id r ≠ .killer .TERMINATE process.id (.ok status) :=
    fun heq ↦ hact (by injection heq)
  have h' := hushing_snoc h hne
  cases r with
  | error e => exact keeps_raise h' trivial
  | ok status =>
    refine keeps_pure h' ⟨rfl, fun hkilled ↦ hk ((killed_append ?_).mp hkilled)⟩
    exact fun status hmem ↦ hne status (List.mem_singleton.mp hmem).symm

theorem hushes_guardedRequest {act : Killer.Act} (hact : act ≠ .TERMINATE)
    (h : (hushing lib process muted).invariant past sol) (hk : Killed process past → muted) :
    Hushes (do
      let sol ← get
      let status ← killerRequest act sol.process.id
      assert (status ≠ .PROTECTED) "Invalid configuration."
      pure status) process muted past sol (fun _ past' sol' ↦
        sol' = sol ∧ (Killed process past' → muted)) := by
  refine keeps_get_bind ((hushes_request hact h hk).bind (fun status past' sol' h' hx ↦ ?_))
  exact (hushes_assert h' (fun _ ↦ hx)).bind (fun _ _ _ h'' hx ↦ keeps_pure h'' hx)

theorem hushes_communicate (h : (hushing lib process muted).invariant past sol)
    (hk : Killed process past → muted) :
    Hushes communicate process muted past sol (fun _ past' sol' ↦
      (Killed process past' → muted) ∧
        (muted → sol'.tokenizerStatus = sol.tokenizerStatus)) := by
  refine (communicate_spec sol).mono (fun tr o sol' hx hrely ↦ ?_)
  obtain ⟨hpath, -⟩ := hx
  have hprocess : sol.process = process := h.1
  have hmute : muted ∨ Killed process past → sol.Mute := h.2
  subst hprocess
  have hkilled : Killed sol.process (past ++ tr) → muted :=
    fun hx ↦ hk ((killed_append (fun _ ↦ path_killer hpath)).mp hx)
  have hsame (hm : muted) : ∃ inbuf, sol' = { sol with inbuf := inbuf } :=
    path_barren hpath (fun e he ↦ throughout_const.mp hrely e he hm)
  refine ⟨throughout_const.mpr (fun _ _ ↦ trivial), ⟨path_process_eq hpath, fun hx ↦ ?_⟩, ?_⟩
  · obtain ⟨inbuf, rfl⟩ := hsame (hx.elim id hkilled)
    exact hmute (.inl (hx.elim id hkilled))
  · cases o with
    | returned status =>
      refine ⟨hkilled, fun hm ↦ ?_⟩
      obtain ⟨inbuf, rfl⟩ := hsame hm
      rfl
    | raised e => exact trivial
    | pending => exact trivial

theorem hushes_endCommunicate (h : (hushing lib process muted).invariant past sol)
    (hk : Killed process past → muted) (htok : sol.tokenizer ≠ none) :
    Hushes endCommunicate process muted past sol (fun _ past' sol' ↦
      (Killed process past' → muted) ∧ (muted → sol'.tokenizerStatus = .CONTINUE)) := by
  refine keeps_ask_bind h (fun status _ ↦ ⟨trivial, keeps_get_bind ?_⟩)
  have h' := hushing_snoc (e := .indeterminate status) h (fun _ heq ↦ by cases heq)
  have hk' : Killed process (past ++ [.indeterminate status]) → muted :=
    fun hx ↦ hk ((killed_append (by simp)).mp hx)
  split
  · next hcontinue =>
    refine (hushes_guardedRequest (fun heq ↦ by cases heq) h' hk').bind ?_
    intro _ past₁ sol₁ h₁ hx₁
    obtain ⟨rfl, hk₁⟩ := hx₁
    refine (hushes_communicate h₁ hk₁).bind (fun status past₂ sol₂ h₂ hx₂ ↦ ?_)
    refine (hushes_guardedRequest (fun heq ↦ by cases heq) h₂ hx₂.1).bind ?_
    intro _ past₃ sol₃ h₃ hx₃
    obtain ⟨rfl, hk₃⟩ := hx₃
    exact keeps_pure h₃ ⟨hk₃, fun hm ↦ (hx₂.2 hm).trans hcontinue⟩
  · exact keeps_pure h' ⟨hk', fun hm ↦ (h.2 (.inl hm)).2 htok⟩

theorem hushes_terminate (h : (hushing lib process muted).invariant past sol) :
    Hushes terminate process muted past sol (fun _ _ _ ↦ True) := by
  have hdropped (past : List Event) (sol : Solution lib) (h : sol.process = process) :
      (hushing lib process muted).invariant past sol.dropped := ⟨h, fun _ ↦ sol.mute_dropped⟩
  refine keeps_get_bind ?_
  simp only [killerRequest, bind_assoc]
  refine keeps_ask_bind h (fun r _ ↦ ⟨trivial, ?_⟩)
  cases r with
  | ok status => exact keeps_modify (hdropped _ sol h.1) trivial
  | error e =>
    have h' := hushing_snoc (e := .killer .TERMINATE sol.process.id (.error e)) h (by simp)
    exact Keeps.bind (Q := fun _ _ _ ↦ False) (keeps_raise h' trivial) (fun _ _ _ _ hx ↦ hx.elim)

theorem hushes_conclude (h : (hushing lib process muted).invariant past sol)
    (hs : muted → sol.tokenizerStatus = .CONTINUE) (discardRemaining : Bool)
    (status : Result.Status) :
    Hushes (conclude discardRemaining status) process muted past sol (fun result _ _ ↦
      muted → result.status ≠ .OK) := by
  have hrest (sol : Solution lib) (h : (hushing lib process muted).invariant past sol)
      (hs : muted → sol.tokenizerStatus = .CONTINUE) :
      Hushes (if status ≠ .OK then do terminate; pure ⟨status, []⟩ else verdict) process muted
        past sol (fun result _ _ ↦ muted → result.status ≠ .OK) := by
    split
    · next hne =>
      exact (hushes_terminate h).bind (fun _ _ _ h' _ ↦ keeps_pure h' (fun _ ↦ hne))
    · refine keeps_get_bind ?_
      split
      · exact keeps_pure h (fun _ heq ↦ by cases heq)
      · exact keeps_pure h (fun _ heq ↦ by cases heq)
      · next haccepted =>
        refine keeps_pure h (fun hm ↦ ?_)
        rw [hs hm] at haccepted
        cases haccepted
  unfold conclude
  cases discardRemaining with
  | false => exact hrest sol h hs
  | true => exact keeps_modify_bind (hrest _ h hs)

theorem hushes_end (h : (hushing lib process muted).invariant past sol)
    (hk : Killed process past → muted) (discardRemaining : Bool) :
    Hushes (end' discardRemaining) process muted past sol (fun result _ _ ↦
      muted → result.status ≠ .OK) := by
  refine keeps_get_bind ?_
  by_cases htok : sol.tokenizer.isSome = true
  · rw [assert, if_pos htok, pure_bind]
    refine Keeps.scopeExit (fun _ _ h' ↦ ⟨h'.1, fun hx ↦ ?_⟩) ?_
    · exact ⟨(h'.2 hx).1, fun h ↦ absurd rfl h⟩
    · refine (hushes_endCommunicate h hk (Option.isSome_iff_ne_none.mp htok)).bind ?_
      exact fun status _ _ h' hx ↦ hushes_conclude h' hx.2 discardRemaining status
  · rw [assert, if_neg htok]
    exact Keeps.bind (Q := fun _ _ _ ↦ False) (keeps_raise h trivial) (fun _ _ _ _ hx ↦ hx.elim)

theorem begin_mute (sol : Solution lib) (argument : TokenizerArgument) (limits : ResourceLimits) :
    (begin argument limits).Ensures sol (fun tr _ sol' ↦ sol'.process = sol.process ∧
      (∀ act id r, .killer act id r ∉ tr) ∧ (sol.Mute → sol'.Mute)) := by
  simp only [begin, newTokenizer, ensures_get_bind, ensures_assert_bind, bind_assoc,
    ensures_ask_bind]
  refine ⟨fun _ ↦ ⟨by simp, fun m ↦ ?_⟩, fun _ ↦ by simp⟩
  cases lib.newTokenizer argument with
  | error msg => simp
  | ok tokenizer =>
    cases m.allocated with
    | false => simp [Unistd.throw]
    | true =>
      simp only [if_true, pure_bind, ensures_modify_bind]
      split
      · next hout =>
        have hloud : ¬ sol.Mute := fun h ↦ hout h.1
        simp only [callTokenizer, bind_assoc, ensures_get_bind]
        cases lib.call tokenizer sol.outbuf with
        | error msg => simp [hloud]
        | ok r =>
          simp only [bind_assoc, ensures_modify_bind, pure_bind]
          cases r.1.status <;> simp [hloud]
      · next hout =>
        simpa using fun _ ↦ ⟨not_not.mp hout, fun _ ↦ rfl⟩

theorem hushes_begin (h : (hushing lib process muted).invariant past sol)
    (argument : TokenizerArgument) (limits : ResourceLimits) :
    Hushes (begin argument limits) process muted past sol (fun _ _ _ ↦ True) := by
  refine (begin_mute sol argument limits).mono (fun tr o sol' hx _ ↦ ?_)
  obtain ⟨hprocess, hkiller, hmute⟩ := hx
  refine ⟨throughout_const.mpr (fun _ _ ↦ trivial), ⟨hprocess.trans h.1, fun hx ↦ ?_⟩, ?_⟩
  · exact hmute (h.2 (hx.imp_right (killed_append (fun _ ↦ hkiller _ _ _)).mp))
  · cases o <;> trivial

theorem hushes_send (h : (hushing lib process muted).invariant past sol) (msg : Bytes) :
    Hushes (send msg) process muted past sol (fun _ _ _ ↦ True) :=
  keeps_get_bind ((hushes_assert (Q := fun _ _ _ ↦ True) h (fun _ ↦ trivial)).bind
    (fun _ _ _ h' _ ↦ keeps_modify h' trivial))

end Solution

namespace BrokerImpl

variable {id : SolutionId} {b b' : BrokerImpl lib} {h : List Exchange} {process : Process}
  {muted : Prop} {x : Exchange}

theorem work_hushes (b : BrokerImpl lib) (c : Command)
    (h : (Solution.hushing lib process muted).invariant [] sol) :
    Solution.Hushes (b.work c) process muted [] sol (fun reply _ _ ↦
      muted → ∀ data, reply ≠ some ⟨.OK, data⟩) := by
  have hnone {m : Calls (Solution lib) Unit}
      (hm : Solution.Hushes m process muted [] sol (fun _ _ _ ↦ True)) :
      Solution.Hushes (m >>= fun _ ↦ pure (none : Option Result)) process muted [] sol
        (fun reply _ _ ↦ muted → ∀ data, reply ≠ some ⟨.OK, data⟩) :=
    hm.bind (fun _ _ _ h' _ ↦ keeps_pure h' (fun _ _ heq ↦ by cases heq))
  cases c with
  | begin₁ | begin₂ | begin₃ => exact hnone (Solution.hushes_begin h _ _)
  | send id msg => exact hnone (Solution.hushes_send h msg)
  | terminate => exact hnone (Solution.hushes_terminate h)
  | end' id discardRemaining =>
    refine (Solution.hushes_end h (fun hx ↦ ?_) discardRemaining).bind ?_
    · obtain ⟨_, hmem⟩ := hx
      cases hmem
    · intro result _ _ h' hne
      refine keeps_pure h' (fun hm data heq ↦ hne hm ?_)
      cases heq
      rfl

theorem serves_hushes (muted : Prop) (hx : Serves b x b') (hid : x.command.id = id)
    (hsol : b.solutions[id.toNat]? = some sol) (hproc : sol.process = process)
    (hmute : muted → sol.Mute) (hread : muted → ∀ e ∈ x.trace, e.Barren process.outFd) :
    ∃ sol', b'.solutions[id.toNat]? = some sol' ∧ sol'.process = process ∧
      (muted ∨ Killed process x.trace → sol'.Mute) ∧
        (muted → ∀ data, x.outcome ≠ .returned (some ⟨.OK, data⟩)) := by
  rcases serves_at hx hsol with ⟨-, sol', hwork, hsol'⟩ | ⟨hne, -⟩
  · have hinv : (Solution.hushing lib process muted).invariant [] sol := by
      refine ⟨hproc, fun hm ↦ hmute (hm.resolve_right (fun hk ↦ ?_))⟩
      obtain ⟨_, hmem⟩ := hk
      cases hmem
    have hrely : Throughout (Solution.hushing lib process muted).rely [] x.trace :=
      throughout_const.mpr (fun e he hm ↦ hread hm e he)
    obtain ⟨-, ⟨hproc', hmute'⟩, hreply⟩ := work_hushes b x.command hinv _ _ _ hwork hrely
    refine ⟨sol', hsol', hproc', hmute', fun hm data hout ↦ ?_⟩
    rw [hout] at hreply
    exact hreply hm data rfl
  · exact absurd hid hne

theorem path_solution (hp : Path Serves b h b') (hsol : b.solutions[id.toNat]? = some sol) :
    ∃ sol', b'.solutions[id.toNat]? = some sol' ∧ sol'.process = sol.process := by
  induction hp generalizing sol with
  | nil => exact ⟨sol, hsol, rfl⟩
  | @cons b c b' x h hx _ ih =>
    by_cases hid : x.command.id = id
    · obtain ⟨sol', hsol', hproc, -⟩ := serves_hushes False hx hid hsol rfl
        False.elim False.elim
      obtain ⟨sol'', hsol'', hproc'⟩ := ih hsol'
      exact ⟨sol'', hsol'', hproc'.trans hproc⟩
    · have hne : id.toNat ≠ x.command.id.toNat := fun h ↦ hid (UInt64.toNat_inj.mp h).symm
      exact ih ((serves_frame hx hne).trans hsol)

/-- The command kills the solution `id`, which runs as `process`. -/
def Exchange.Terminates (x : Exchange) (id : SolutionId) (process : Process) : Prop :=
  x.command.id = id ∧ ∃ status, .killer .TERMINATE process.id (.ok status) ∈ x.trace

/-- Once killed, a solution gives no further answer. -/
def SilentOnceTerminated (id : SolutionId) (process : Process) (h : List Exchange) : Prop :=
  ∀ before x after, h = before ++ x :: after → x.Terminates id process →
    ∀ y ∈ after, y.command.id = id → ∀ data, y.outcome ≠ .returned (some ⟨.OK, data⟩)

theorem silent_run {sol : Solution lib} (hp : Path Serves b h b')
    (hsol : b.solutions[id.toNat]? = some sol) (hproc : sol.process = process)
    (hmute : sol.Mute) (hread : Path (Delivery S process.outFd) p (h.flatMap (·.trace)) q)
    (hend : S.length = p) :
    ∀ y ∈ h, y.command.id = id → ∀ data, y.outcome ≠ .returned (some ⟨.OK, data⟩) := by
  induction hp generalizing sol p with
  | nil => exact List.forall_mem_nil _
  | @cons b c _ x h hx hp ih =>
    rw [List.flatMap_cons] at hread
    obtain ⟨r, hd, hread'⟩ := hread.split
    have hend' := delivery_at_end hd hend
    by_cases hid : x.command.id = id
    · obtain ⟨sol', hsol', hproc', hmute', hreply⟩ := serves_hushes True hx hid hsol
        hproc (fun _ ↦ hmute) (fun _ ↦ delivery_barren hd hend)
      refine List.forall_mem_cons.mpr ⟨fun _ ↦ hreply trivial, ?_⟩
      exact ih hsol' hproc' (hmute' (.inl trivial)) hread' hend'
    · have hne : id.toNat ≠ x.command.id.toNat := fun h ↦ hid (UInt64.toNat_inj.mp h).symm
      have hrest := ih ((serves_frame hx hne).trans hsol) hproc hmute hread' hend'
      exact List.forall_mem_cons.mpr ⟨fun h ↦ absurd h hid, hrest⟩

/-- A terminated solution stays silent if at every termination of it the broker has
already read all that the solution has written. -/
theorem silent_once_terminated {options : Options} {startup : List Event}
    (h₀ : Started options startup b) (hp : Path Serves b h b')
    (hid : options.solutions[id.toNat]? = some process)
    (hread : Path (Delivery S process.outFd) 0 (h.flatMap (·.trace)) q)
    (hdrained : ∀ before x after, h = before ++ x :: after → x.Terminates id process →
      Drained S process.outFd ((before ++ [x]).flatMap (·.trace))) :
    SilentOnceTerminated id process h := by
  intro before x after hsplit hx
  obtain ⟨p, hpos, hend⟩ := hdrained before x after hsplit hx
  have hjoin : h = (before ++ [x]) ++ after := by rw [hsplit, List.append_assoc]; rfl
  rw [hjoin, List.flatMap_append] at hread
  obtain ⟨p', hpos', hafter⟩ := hread.split
  obtain rfl := delivery_unique hpos' hpos
  rw [hsplit] at hp
  obtain ⟨c, hbefore, hrest⟩ := hp.split
  rw [(started_spec h₀).2] at hbefore
  obtain ⟨sol, hsol, hproc⟩ := path_solution hbefore (ready_solution hid)
  cases hrest with
  | cons hx' hrest =>
    obtain ⟨sol', hsol', hproc', hmute, -⟩ := serves_hushes False hx' hx.1 hsol hproc
      False.elim False.elim
    exact silent_run hrest hsol' hproc' (hmute (.inr hx.2)) hafter hend

theorem split_unique {α : Type} {P : α → Prop} {first rest before after : List α} {x y : α}
    (hfirst : ∀ z ∈ first, ¬ P z) (hrest : ∀ z ∈ rest, ¬ P z)
    (h : first ++ y :: rest = before ++ x :: after) (hx : P x) : before = first ∧ x = y := by
  rcases List.append_eq_append_iff.mp h with ⟨mid, rfl, hmid⟩ | ⟨mid, rfl, hmid⟩
  · cases mid with
    | nil =>
      cases hmid
      exact ⟨List.append_nil _, rfl⟩
    | cons z mid =>
      cases hmid
      exact absurd hx (hrest x (by simp))
  · cases mid with
    | nil =>
      cases hmid
      exact ⟨(List.append_nil _).symm, rfl⟩
    | cons z mid =>
      cases hmid
      exact absurd hx (hfirst x (by simp))

/-- The output `x\ny\n`. -/
def twoWords : Stream UInt8 where
  symbol i := [120, 10, 121, 10].getD i 0
  length := (4 : ℕ)

/-- Both lines are read at once. The first one is the answer; the second one is held back when
the solution is killed. The `begin` that follows runs out of memory, and is repeated. -/
def twoWordsRun : List Exchange :=
  ((ready Options.single : BrokerImpl SplitChar.library).replay
    [(.begin₁ 0, [{}]),
      (.end' 0 false, List.replicate 11
        { epollWait := .ok [{ fd := 5, EPOLLIN := true }], read := .ok [120, 10, 121, 10] }),
      (.terminate 0, [{}]), (.begin₁ 0, [{ allocated := false }]), (.begin₁ 0, [{}]),
      (.end' 0 false, List.replicate 12
        { epollWait := .ok [{ fd := 5, EPOLLHUP := true }] })]).1

theorem twoWordsRun_eq : twoWordsRun =
    [⟨.begin₁ 0, .returned none, [.newTokenizer [10] true]⟩,
      ⟨.end' 0 false, .returned (some ⟨.OK, [120, 10]⟩),
        [.indeterminate .OK, .killer .UNFREEZE 10 (.ok .OK), .now 0, .epollCreate1 (.ok ()),
          .epollCtlAdd 4 { fd := 4, EPOLLOUT := true } (.ok ()),
          .epollCtlAdd 5 { fd := 5, EPOLLIN := true } (.ok ()), .now 0,
          .epollWait (.ok [{ fd := 5, EPOLLIN := true }]), .now 0,
          .read 5 (.ok [120, 10, 121, 10]), .killer .FREEZE 10 (.ok .OK)]⟩] ++
    ⟨.terminate 0, .returned none, [.killer .TERMINATE 10 (.ok .OK)]⟩ ::
    [⟨.begin₁ 0, .raised (.exception .badAlloc), [.newTokenizer [10] false]⟩,
      ⟨.begin₁ 0, .returned none, [.newTokenizer [10] true]⟩,
      ⟨.end' 0 false, .returned (some ⟨.EOF_ERROR, []⟩),
        [.indeterminate .OK, .killer .UNFREEZE 10 (.ok .OK), .now 0, .epollCreate1 (.ok ()),
          .epollCtlAdd 4 { fd := 4, EPOLLOUT := true } (.ok ()),
          .epollCtlAdd 5 { fd := 5, EPOLLIN := true } (.ok ()), .now 0,
          .epollWait (.ok [{ fd := 5, EPOLLHUP := true }]), .now 0,
          .killer .FREEZE 10 (.ok .OK)]⟩] := by
  cbv

theorem twoWordsRun_delivery :
    Path (Delivery twoWords 5) 0 ((twoWordsRun.take 3).flatMap (·.trace)) 4 ∧
      Path (Delivery twoWords 5) 4 ((twoWordsRun.drop 3).flatMap (·.trace)) 4 := by
  have hall : (4 : ℕ∞) ≤ twoWords.length := le_refl 4
  have hread : ∀ events : List EpollEvent,
      (.ok [{ fd := 5, EPOLLIN := true }] : Except Errno (List EpollEvent)) = .ok events →
      ∀ ev ∈ events, ev.fd = 5 → ev.EPOLLIN = false → twoWords.length = (0 : ℕ) := by
    intro events hevents ev hev _ hin
    cases hevents
    rw [List.mem_singleton.mp hev] at hin
    cases hin
  rw [twoWordsRun_eq]
  constructor
  · exact .cons (.other rfl) (.cons (.other rfl) (.cons (.other rfl) (.cons (.other rfl)
      (.cons (.other rfl) (.cons (.other rfl) (.cons (.other rfl) (.cons (.other rfl)
      (.cons (.waited hread) (.cons (.other rfl) (.cons (.chunk (n := 4) (by decide) hall rfl)
      (.cons (.other rfl) (.one (.other rfl)))))))))))))
  · exact .cons (.other rfl) (.cons (.other rfl) (.cons (.other rfl) (.cons (.other rfl)
      (.cons (.other rfl) (.cons (.other rfl) (.cons (.other rfl) (.cons (.other rfl)
      (.cons (.other rfl) (.cons (.waited (fun _ _ _ _ _ _ ↦ rfl)) (.cons (.other rfl)
      (.one (.other rfl))))))))))))

theorem silent_once_terminated_two_words : SilentOnceTerminated 0 ⟨4, 5, 10⟩ twoWordsRun := by
  obtain ⟨hbefore, hafter⟩ := twoWordsRun_delivery
  have hread : Path (Delivery twoWords 5) 0 (twoWordsRun.flatMap (·.trace)) 4 := by
    rw [← List.take_append_drop 3 twoWordsRun, List.flatMap_append]
    exact hbefore.append hafter
  refine silent_once_terminated single_started (replay_serves _ _) rfl hread ?_
  intro before x after hsplit hx
  have hquiet : ∀ y ∈ twoWordsRun.take 2 ++ twoWordsRun.drop 3,
      ¬ y.Terminates 0 ⟨4, 5, 10⟩ := by
    simp [twoWordsRun_eq, Exchange.Terminates]
  obtain ⟨hfirst, hrest⟩ := List.forall_mem_append.mp hquiet
  have hkill : twoWordsRun.take 2 ++ _ :: twoWordsRun.drop 3 = before ++ x :: after := hsplit
  obtain ⟨rfl, rfl⟩ := split_unique hfirst hrest hkill hx
  exact ⟨4, hbefore, rfl⟩

/-- The output `x\n`, written before the solution was killed. -/
def lastWords : Stream UInt8 where
  symbol i := [120, 10].getD i 0
  length := 2

def lastWordsAnswer : Answer where
  epollWait := .ok [{ fd := 5, EPOLLIN := true, EPOLLHUP := true }]
  read := .ok [120, 10]

def lastWordsRun : List Exchange :=
  ((ready Options.single : BrokerImpl SplitChar.library).replay
    [(.begin₁ 0, [lastWordsAnswer]), (.terminate 0, [lastWordsAnswer]),
      (.begin₁ 0, [lastWordsAnswer]), (.end' 0 false, List.replicate 12 lastWordsAnswer)]).1

theorem lastWordsRun_trace : lastWordsRun.flatMap (·.trace) =
    [.newTokenizer [10] true, .killer .TERMINATE 10 (.ok .OK), .newTokenizer [10] true,
      .indeterminate .OK, .killer .UNFREEZE 10 (.ok .OK), .now 0, .epollCreate1 (.ok ()),
      .epollCtlAdd 4 { fd := 4, EPOLLOUT := true } (.ok ()),
      .epollCtlAdd 5 { fd := 5, EPOLLIN := true } (.ok ()), .now 0,
      .epollWait (.ok [{ fd := 5, EPOLLIN := true, EPOLLHUP := true }]), .now 0,
      .read 5 (.ok [120, 10]), .killer .FREEZE 10 (.ok .OK)] := rfl

theorem terminated_solution_answers :
    ∃ b', Path Answers (ready Options.single : BrokerImpl SplitChar.library) lastWordsRun b' ∧
      Path (Delivery lastWords 5) 0 (lastWordsRun.flatMap (·.trace)) 2 ∧
        ¬ SilentOnceTerminated 0 ⟨4, 5, 10⟩ lastWordsRun := by
  refine ⟨_, replay_path _ _ (by decide), ?_, fun hsilent ↦ ?_⟩
  · have hall : (2 : ℕ∞) ≤ lastWords.length := le_refl 2
    rw [lastWordsRun_trace]
    refine .cons (.other rfl) (.cons (.other rfl) (.cons (.other rfl) (.cons (.other rfl)
      (.cons (.other rfl) (.cons (.other rfl) (.cons (.other rfl) (.cons (.other rfl)
      (.cons (.other rfl) (.cons (.other rfl) (.cons (.waited ?_) (.cons (.other rfl)
      (.cons (.chunk (n := 2) (by decide) hall rfl) (.one (.other rfl))))))))))))))
    intro events hevents ev hev hfd hin
    cases hevents
    rw [List.mem_singleton.mp hev] at hin
    cases hin
  · have hkilled : lastWordsRun = lastWordsRun.take 1 ++ _ :: lastWordsRun.drop 2 := rfl
    have hlast := hsilent _ _ _ hkilled ⟨rfl, .OK, List.mem_singleton.mpr rfl⟩ _
      (.tail _ (.head _)) rfl [120, 10]
    exact hlast rfl

end BrokerImpl

end FlowctlGame
