import FlowctlGame.Conduct
import FlowctlGame.Defaults

namespace FlowctlGame

open Interaction Program Unistd Broker

variable {lib : TokenizerLibrary}

def TokenizerLibrary.Asserts (lib : TokenizerLibrary) (msg : String) : Prop :=
  (∃ argument, lib.newTokenizer argument = .error msg) ∨
    ∃ tokenizer data, lib.parse tokenizer data = .error msg

theorem TokenizerLibrary.asserts_of_call {tokenizer : lib.Instance} {data : Bytes} {msg : String}
    (h : lib.call tokenizer data = .error msg) : lib.Asserts msg := by
  refine .inr ⟨tokenizer, data, ?_⟩
  unfold TokenizerLibrary.call at h
  split at h
  · next heq =>
    cases h
    exact heq
  · split at h
    · cases h
    · split at h <;> cases h

def invalidConfiguration : Failure := .abort "Invalid configuration."

def Unistd.Event.Refused : Event → Prop
  | .killer _ _ (.ok .PROTECTED) => True
  | _ => False

namespace Solution

/-- A solution's part of the broker works on its own process only, and the assertions of
`freeze` and `unfreeze` fail only on the answer `PROTECTED`. -/
def contract (lib : TokenizerLibrary) (process : Process) :
    Contract Event (Solution lib) Failure where
  invariant sol := sol.process = process
  allowed := Event.Addresses process
  fatal := Event.Refused
  error failure := failure = invalidConfiguration → lib.Asserts "Invalid configuration."

theorem contract_serving (process : Process) : Serving (contract lib process) where
  deregisters _ _ := trivial
  writes _ hs _ _ := congrArg Process.inFd hs
  reads _ hs _ := congrArg Process.outFd hs
  drained _ hs _ := hs
  absorbed sol hs _ buf _ := (absorb_process sol buf).trans hs
  chokes _ _ _ _ _ msg h := by
    intro heq
    cases h with
    | absent => exact absurd heq (by decide)
    | failed _ hcall =>
      cases heq
      exact TokenizerLibrary.asserts_of_call hcall
  unexpected h := absurd h (by decide)
  throws _ h := by cases h
  quiet e he := by cases e <;> trivial
  uncalled _ _ _ h := absurd h (by decide)
  indeterminate _ := trivial
  news _ _ := trivial
  kills _ hs _ _ := congrArg Process.id hs
  protects _ _ := .inr trivial
  twice _ _ _ h := absurd h (by decide)
  refuses argument msg hnew h := by
    cases h
    exact .inl ⟨argument, hnew⟩
  opened _ hs _ _ _ _ := hs
  begun _ hs _ _ _ h := h.process_eq.trans hs
  sent _ hs _ := hs
  discarded _ hs := hs
  dropped _ hs := hs
  closed _ hs := hs

end Solution

namespace BrokerImpl

def contract (lib : TokenizerLibrary) (processes : List Process) :
    Contract Event (BrokerImpl lib) Failure where
  invariant b := b.solutions.map (·.process) = processes
  allowed e := ∃ process ∈ processes, e.Addresses process
  fatal := Event.Refused
  error failure := failure = invalidConfiguration → lib.Asserts "Invalid configuration."

variable {processes : List Process} {α β : Type}

theorem meets_solutionAt {m : Calls (Solution lib) α}
    (hm : ∀ process, m.Meets (Solution.contract lib process)) (i : ℕ) :
    (solutionAt i m).Meets (contract lib processes) := by
  intro b hb
  refine Ensures.focus (fun sol hsol ↦ ?_) (fun _ ↦ ⟨hb, by simp, fun err he ↦ .inl ?_⟩)
  · refine (hm sol.process sol rfl).mono (fun tr o sol' hend ↦ ?_)
    obtain ⟨hinv, hallowed, herror⟩ := hend
    have hproc : processes[i]? = some sol.process := by
      have hget : (b.solutions.map (·.process))[i]? = some sol.process := by simp [hsol]
      rwa [show b.solutions.map (·.process) = processes from hb] at hget
    refine ⟨?_, fun e he ↦ ⟨sol.process, List.mem_of_getElem? hproc, hallowed e he⟩, herror⟩
    have hsame : sol'.process = sol.process := hinv
    obtain ⟨hlt, hself⟩ := List.getElem?_eq_some_iff.mp hproc
    simp only [contract, List.map_set, hsame]
    rw [show b.solutions.map (·.process) = processes from hb, ← hself, List.set_getElem_self]
  · cases he
    exact fun h ↦ absurd h (by decide)

theorem meets_run (c : Command) :
    (run c : Calls (BrokerImpl lib) (Option Result)).Meets (contract lib processes) := by
  cases c with
  | begin₁ id =>
    refine Meets.bind (meets_get_bind (fun b _ ↦ meets_get_bind (fun b' _ ↦ ?_)))
      (fun _ ↦ meets_pure _)
    exact meets_solutionAt (fun _ ↦ (Solution.contract_serving _).meets_begin _ _) _
  | begin₂ id argument =>
    refine Meets.bind (meets_get_bind (fun b _ ↦ ?_)) (fun _ ↦ meets_pure _)
    exact meets_solutionAt (fun _ ↦ (Solution.contract_serving _).meets_begin _ _) _
  | begin₃ id argument limits =>
    exact (meets_solutionAt (fun _ ↦ (Solution.contract_serving _).meets_begin _ _) _).bind
      (fun _ ↦ meets_pure _)
  | send id msg =>
    exact (meets_solutionAt (fun _ ↦ (Solution.contract_serving _).meets_send _) _).bind
      (fun _ ↦ meets_pure _)
  | end' id discardRemaining =>
    exact (meets_solutionAt (fun _ ↦ (Solution.contract_serving _).meets_end _) _).bind
      (fun _ ↦ meets_pure _)
  | terminate id =>
    exact (meets_solutionAt (fun _ ↦ (Solution.contract_serving _).meets_terminate) _).bind
      (fun _ ↦ meets_pure _)

theorem meets_prepare (i : ℕ) :
    (prepare i : Calls (BrokerImpl lib) Unit).Meets (contract lib processes) := by
  refine meets_get_bind (fun b _ ↦ meets_solutionAt (fun process ↦ ?_) i)
  have hserving : Solution.Serving (Solution.contract lib process) :=
    Solution.contract_serving process
  refine (hserving.meets_guardedRequest hserving.kills hserving.protects .FREEZE).bind
    (fun _ ↦ meets_get_bind (fun sol _ ↦ ?_))
  have hnonblock (fd : Fd) :
      (setnonblock fd : Calls (Solution lib) Unit).Meets (Solution.contract lib process) :=
    ((meets_ask (fun _ ↦ trivial)).bind (hserving.meets_checked _)).bind
      (fun _ ↦ (meets_ask (fun _ ↦ trivial)).bind (hserving.meets_checked _))
  refine (hnonblock _).bind (fun _ ↦ (hnonblock _).bind (fun _ ↦ ?_))
  exact meets_modify (fun _ hs ↦ hs)

theorem meets_construct :
    (construct : Calls (BrokerImpl lib) Unit).Meets (contract lib processes) := by
  refine meets_get_bind (fun b _ ↦ ?_)
  induction List.range b.solutions.length with
  | nil => exact meets_pure _
  | cons i is ih =>
    exact Meets.bind (meets_prepare i) (fun _ ↦ ih)

theorem run_keeps {b b' : BrokerImpl lib} {h : List Exchange} (hp : Path Serves b h b')
    (hb : b.solutions.map (·.process) = processes) :
    ∀ x ∈ h, (∀ e ∈ x.trace, ∃ process ∈ processes, e.Addresses process) ∧
      (x.outcome = .raised invalidConfiguration →
        lib.Asserts "Invalid configuration." ∨ ∃ e ∈ x.trace, e.Refused) := by
  induction hp with
  | nil => exact fun _ hx ↦ absurd hx List.not_mem_nil
  | @cons b b₁ b' x tr hs hp ih =>
    obtain ⟨hinv, hallowed, herror⟩ := meets_run x.command b hb _ _ _ hs
    refine List.forall_mem_cons.mpr ⟨⟨hallowed, fun hout ↦ ?_⟩, ih hinv⟩
    exact (herror _ hout).imp_left (fun h ↦ h rfl)

end BrokerImpl

namespace KillerImpl

def readOptions {constructed : Options}
    (archive : Text.Archive (Text.fields Options.serialize) constructed) (file : archive.File) :
    Option Options :=
  archive.load file

theorem readOptions_save {constructed : Options}
    (archive : Text.Archive (Text.fields Options.serialize) constructed) (options : Options) :
    readOptions archive (archive.save options) = some options :=
  archive.load_save options

variable {platform : Platform}

/-- The control group of a process of the game; the groups of all processes are siblings. -/
def groupOf (siblings : platform.ControlGroup) (id : Killer.Id) : platform.ControlGroup :=
  platform.attachChild siblings (platform.format defaultPattern id)

theorem groupOf_injective (hp : platform.Lawful) (siblings : platform.ControlGroup) :
    Function.Injective (groupOf siblings) :=
  (hp.attachChild_injective siblings).comp hp.format_injective

end KillerImpl

namespace KillerInterface

open KillerImpl (groupOf)

variable {platform : KillerImpl.Platform} {c : Configurator} {siblings : platform.ControlGroup}

def killerOf (c : Configurator) (siblings : platform.ControlGroup) : KillerImpl platform :=
  .new c.configure.killerOptions (groupOf siblings c.killer)

theorem mem_unprotected (hp : platform.Lawful) (hkiller : c.killer ∉ c.solutions)
    (id : Killer.Id) :
    (killerOf c siblings).rawIdToCgroup id ∈ (killerOf c siblings).unprotected ↔
      id ∈ c.solutions := by
  have hpattern : c.configure.killerOptions.pattern = KillerImpl.defaultPattern := rfl
  simp only [killerOf, KillerImpl.new, KillerImpl.rawIdToCgroup, hpattern,
    Configurator.configure_unprotected, groupOf, hp.name_attachChild, Finset.mem_erase,
    Finset.mem_image, List.mem_toFinset]
  constructor
  · intro h
    obtain ⟨-, id', hid', heq⟩ := h
    rwa [← hp.format_injective heq]
  · intro hid
    refine ⟨fun heq ↦ hkiller ?_, id, hid, rfl⟩
    rwa [← hp.format_injective heq]

theorem cgroupOf_killerOf (hp : platform.Lawful) (id : Killer.Id) :
    (killerOf c siblings).cgroupOf id = groupOf siblings id :=
  congrArg (platform.attachChild · _) (hp.parent_attachChild _ _)

theorem serves_protects (hp : platform.Lawful) (hkiller : c.killer ∉ c.solutions)
    {x : Exchange platform} {killer' : KillerImpl platform}
    (h : Serves (killerOf c siblings) x killer') :
    (∀ e ∈ x.trace, x.command.id ∈ c.solutions ∧ e.Within (· = groupOf siblings x.command.id)) ∧
      ∀ status, x.outcome = .returned status →
        (status = .PROTECTED ↔ x.command.id ∉ c.solutions) := by
  obtain ⟨-, hevents, hstatus⟩ := serves_spec h
  simp only [mem_unprotected hp hkiller, cgroupOf_killerOf hp] at hevents hstatus
  exact ⟨hevents, hstatus⟩

/-- The same in terms of the groups, where the processes of the game have distinct ids. -/
theorem serves_groups (hp : platform.Lawful)
    (hids : (c.broker :: c.killer :: c.judge :: c.solutions).Nodup) {x : Exchange platform}
    {killer' : KillerImpl platform} (h : Serves (killerOf c siblings) x killer') :
    (∀ e ∈ x.trace, e.Within (fun group ↦ (∃ id ∈ c.solutions, group = groupOf siblings id) ∧
      ∀ id ∈ [c.broker, c.judge, c.killer], group ≠ groupOf siblings id)) ∧
    ∀ status, x.outcome = .returned status →
      (status = .PROTECTED ↔
        ∀ id ∈ c.solutions, groupOf siblings x.command.id ≠ groupOf siblings id) ∧
      (status = .PROTECTED → x.trace = []) := by
  simp only [List.nodup_cons, List.mem_cons, not_or] at hids
  obtain ⟨⟨-, -, hb⟩, ⟨-, hk⟩, hj, -⟩ := hids
  obtain ⟨hevents, hstatus⟩ := serves_protects hp hk h
  refine ⟨fun e he ↦ ?_, fun status hout ↦ ⟨?_, fun hprotected ↦ ?_⟩⟩
  · obtain ⟨hid, hwithin⟩ := hevents e he
    refine hwithin.mono (fun group hgroup ↦ ?_)
    subst hgroup
    refine ⟨⟨_, hid, rfl⟩, fun id hmem heq ↦ ?_⟩
    rw [KillerImpl.groupOf_injective hp siblings heq] at hid
    simp only [List.mem_cons, List.not_mem_nil, or_false] at hmem
    rcases hmem with rfl | rfl | rfl
    · exact hb hid
    · exact hj hid
    · exact hk hid
  · rw [hstatus status hout]
    constructor
    · intro hnot id hid heq
      exact hnot (KillerImpl.groupOf_injective hp siblings heq ▸ hid)
    · intro hne hid
      exact hne _ hid rfl
  · refine List.eq_nil_iff_forall_not_mem.mpr (fun e he ↦ ?_)
    exact (hstatus status hout).mp hprotected (hevents e he).1

/-- The requests among the calls of the broker are in the killer's history, in order, where
others may ask for something too. Where a call ended with an exception the request or its
answer may have been lost. -/
inductive Relays : List Unistd.Event → List (Exchange platform) → Prop
  | nil : Relays [] []
  | other {e : Unistd.Event} {tr : List Unistd.Event} {h : List (Exchange platform)} :
      (∀ act id r, e ≠ .killer act id r) → Relays tr h → Relays (e :: tr) h
  | foreign {x : Exchange platform} {tr : List Unistd.Event} {h : List (Exchange platform)} :
      Relays tr h → Relays tr (x :: h)
  | answered {act : Killer.Act} {id : Killer.Id} {status : Killer.Status}
      {calls : List (KillerImpl.Event platform)} {tr : List Unistd.Event}
      {h : List (Exchange platform)} :
      Relays tr h → Relays (.killer act id (.ok status) :: tr)
        (⟨⟨act, id⟩, .returned status, calls⟩ :: h)
  | unanswered {act : Killer.Act} {id : Killer.Id} {e : Exception}
      {outcome : Outcome Empty Killer.Status} {calls : List (KillerImpl.Event platform)}
      {tr : List Unistd.Event} {h : List (Exchange platform)} :
      Relays tr h → Relays (.killer act id (.error e) :: tr) (⟨⟨act, id⟩, outcome, calls⟩ :: h)
  | unsent {act : Killer.Act} {id : Killer.Id} {e : Exception} {tr : List Unistd.Event}
      {h : List (Exchange platform)} :
      Relays tr h → Relays (.killer act id (.error e) :: tr) h

theorem Relays.others {tr tr' : List Unistd.Event} {h : List (Exchange platform)}
    (hne : ∀ e ∈ tr, ∀ act id r, e ≠ .killer act id r) (hr : Relays tr' h) :
    Relays (tr ++ tr') h := by
  induction tr with
  | nil => exact hr
  | cons e tr ih =>
    obtain ⟨he, hne⟩ := List.forall_mem_cons.mp hne
    exact .other he (ih hne)

theorem Relays.not_refused {tr : List Unistd.Event} {h : List (Exchange platform)}
    (hr : Relays tr h)
    (hh : ∀ x ∈ h, (∃ e ∈ tr, ∃ r, e = .killer x.command.type x.command.id r) →
      x.outcome ≠ .returned .PROTECTED) : ∀ e ∈ tr, ¬ e.Refused := by
  induction hr with
  | nil => exact fun _ he ↦ absurd he List.not_mem_nil
  | @other e tr h hne _ ih =>
    refine List.forall_mem_cons.mpr ⟨?_, ih (fun x hx hreq ↦ hh x hx ?_)⟩
    · intro href
      cases e with
      | killer act id r => exact hne act id r rfl
      | _ => exact href
    · obtain ⟨e, he, hreq⟩ := hreq
      exact ⟨e, List.mem_cons_of_mem _ he, hreq⟩
  | foreign _ ih => exact ih (fun x hx hreq ↦ hh x (List.mem_cons_of_mem _ hx) hreq)
  | @answered act id status calls tr h _ ih =>
    refine List.forall_mem_cons.mpr ⟨fun href ↦ ?_, ih (fun x hx hreq ↦ ?_)⟩
    · have hne := hh _ (List.mem_cons_self ..) ⟨_, List.mem_cons_self .., _, rfl⟩
      cases status with
      | PROTECTED => exact hne rfl
      | OK => exact href
      | ERROR => exact href
    · obtain ⟨e, he, hreq⟩ := hreq
      exact hh x (List.mem_cons_of_mem _ hx) ⟨e, List.mem_cons_of_mem _ he, hreq⟩
  | unanswered _ ih =>
    refine List.forall_mem_cons.mpr ⟨id, ih (fun x hx hreq ↦ ?_)⟩
    obtain ⟨e, he, hreq⟩ := hreq
    exact hh x (List.mem_cons_of_mem _ hx) ⟨e, List.mem_cons_of_mem _ he, hreq⟩
  | unsent _ ih =>
    refine List.forall_mem_cons.mpr ⟨id, ih (fun x hx hreq ↦ ?_)⟩
    obtain ⟨e, he, hreq⟩ := hreq
    exact hh x hx ⟨e, List.mem_cons_of_mem _ he, hreq⟩

end KillerInterface

namespace BrokerImpl

open KillerImpl (Platform groupOf)

theorem addressed_solution {c : Configurator} {e : Event} {act : Killer.Act} {id : Killer.Id}
    {r : Except Exception Killer.Status} (he : e = .killer act id r)
    (h : ∃ process ∈ c.configure.brokerOptions.solutions, e.Addresses process) :
    id ∈ c.solutions := by
  obtain ⟨process, hmem, haddr⟩ := h
  rw [he] at haddr
  rw [← c.configure_ids, show id = process.id from haddr]
  exact List.mem_map_of_mem hmem

/-- The killer of a game touches the control groups of its solutions and no others, refuses
exactly the requests for others, and never one of the broker's. -/
theorem killer_acts_on_solutions_only {platform : Platform} {c : Configurator}
    {siblings : platform.ControlGroup} {constructed : Options}
    {constructed' : KillerImpl.Options} (hplatform : platform.Lawful)
    (archive : Text.Archive (Text.fields Options.serialize) constructed)
    (archive' : Text.Archive (Text.fields KillerImpl.Options.serialize) constructed')
    {options : Options} {options' : KillerImpl.Options}
    {requests : List (KillerInterface.Exchange platform)} {killer : KillerImpl platform}
    {startup : List Event} {o : Outcome Failure Unit} {b₀ b : BrokerImpl lib}
    {h : List Exchange}
    (hids : (c.broker :: c.killer :: c.judge :: c.solutions).Nodup)
    (hread : readOptions archive (archive.save c.configure.brokerOptions) = some options)
    (hread' : KillerImpl.readOptions archive' (archive'.save c.configure.killerOptions) =
      some options')
    (hkiller : Path KillerInterface.Serves (.new options' (groupOf siblings c.killer)) requests
      killer)
    (hstart : construct.Executes (new options) startup o b₀) (hrun : Path Serves b₀ h b) :
    (∀ x ∈ requests,
      (∀ e ∈ x.trace, e.Within (fun group ↦ (∃ id ∈ c.solutions, group = groupOf siblings id) ∧
        ∀ id ∈ [c.broker, c.judge, c.killer], group ≠ groupOf siblings id)) ∧
      ∀ status, x.outcome = .returned status →
        (status = .PROTECTED ↔
          ∀ id ∈ c.solutions, groupOf siblings x.command.id ≠ groupOf siblings id) ∧
        (status = .PROTECTED → x.trace = [])) ∧
    (KillerInterface.Relays (startup ++ h.flatMap (·.trace)) requests →
      (∀ e ∈ startup ++ h.flatMap (·.trace), ¬ e.Refused) ∧
      (o = .raised invalidConfiguration → lib.Asserts "Invalid configuration.") ∧
      ∀ x ∈ h, x.outcome = .raised invalidConfiguration →
        lib.Asserts "Invalid configuration.") := by
  rw [KillerImpl.readOptions_save, Option.some.injEq] at hread'
  subst hread'
  have hserves := KillerInterface.serves_path hkiller
  refine ⟨fun x hx ↦ KillerInterface.serves_groups hplatform hids (hserves x hx), fun hrelays ↦ ?_⟩
  have hsolutions : options.solutions = c.configure.brokerOptions.solutions := by
    rw [readOptions, archive.load_save, restored_serialize, Option.some.injEq] at hread
    rw [← hread]
  have hprocs : (new options : BrokerImpl lib).solutions.map (·.process) =
      c.configure.brokerOptions.solutions := by
    simp [new, hsolutions, Solution.ofProcess, Function.comp_def]
  obtain ⟨hinv, hallowed, herror⟩ := meets_construct _ hprocs _ _ _ hstart
  have hkeeps := run_keeps hrun hinv
  have hrefused : ∀ e ∈ startup ++ h.flatMap (·.trace), ¬ e.Refused := by
    refine hrelays.not_refused (fun x hx hreq hout ↦ ?_)
    obtain ⟨e, he, r, heq⟩ := hreq
    have hkiller : c.killer ∉ c.solutions := by
      simp only [List.nodup_cons, List.mem_cons, not_or] at hids
      exact hids.2.1.2
    have hrefuses := (KillerInterface.serves_protects hplatform hkiller (hserves x hx)).2 _ hout
    refine hrefuses.mp rfl (addressed_solution heq ?_)
    rcases List.mem_append.mp he with hmem | hmem
    · exact hallowed e hmem
    · obtain ⟨x', hx', hmem'⟩ := List.mem_flatMap.mp hmem
      exact (hkeeps x' hx').1 e hmem'
  refine ⟨hrefused, fun hout ↦ ?_, fun x hx hout ↦ ?_⟩
  · rcases herror _ hout with hlib | ⟨e, he, hfatal⟩
    · exact hlib rfl
    · exact absurd hfatal (hrefused e (List.mem_append_left _ he))
  · rcases (hkeeps x hx).2 hout with hlib | ⟨e, he, hfatal⟩
    · exact hlib
    · exact absurd hfatal
        (hrefused e (List.mem_append_right _ (List.mem_flatMap.mpr ⟨x, hx, he⟩)))

def twoOptions : Options :=
  { twoSolutions.configure.brokerOptions with defaultTokenizerArgument := [] }

/-- The killer of `twoSolutions`, and what it does for a request that does not fail. -/
def twoKiller : KillerImpl .paths := KillerInterface.killerOf twoSolutions [[103]]

def twoRequest (act : Killer.Act) (id : Killer.Id) : KillerInterface.Exchange .paths :=
  let x := (KillerInterface.run ⟨act, id⟩).run twoKiller [{}, {}]
  ⟨⟨act, id⟩, x.outcome, x.trace⟩

theorem twoRequest_serves (act : Killer.Act) (id : Killer.Id) :
    KillerInterface.Serves twoKiller (twoRequest act id) twoKiller := by
  have hrun : KillerInterface.Serves twoKiller (twoRequest act id) _ := executes_run _ _ _
  rwa [(KillerInterface.serves_spec hrun).1] at hrun

def twoStartup : List Event :=
  [.killer .FREEZE 10 (.ok .OK)] ++ nonblocking 7 0 ++ nonblocking 8 0 ++
    ([.killer .FREEZE 20 (.ok .OK)] ++ nonblocking 9 0 ++ nonblocking 10 0)

theorem twoStartup_executes : construct.Executes (new twoOptions) twoStartup (.returned ())
    (ready twoOptions : BrokerImpl SplitChar.library) := by
  refine ⟨List.replicate 10 {}, ?_⟩
  cbv

/-- The second solution has its turn, and the first one is killed. -/
def twoRun : List Exchange × BrokerImpl SplitChar.library :=
  (ready twoOptions : BrokerImpl SplitChar.library).replay
    [(.begin₂ 1 [10], [{}]),
      (.end' 1 false, List.replicate 12 { epollWait := .ok [{ fd := 10, EPOLLHUP := true }] }),
      (.terminate 0, [{}])]

theorem twoRun_trace : twoRun.1.flatMap (·.trace) =
    [.newTokenizer [10] true, .indeterminate .OK, .killer .UNFREEZE 20 (.ok .OK), .now 0,
      .epollCreate1 (.ok ()), .epollCtlAdd 9 { fd := 9, EPOLLOUT := true } (.ok ()),
      .epollCtlAdd 10 { fd := 10, EPOLLIN := true } (.ok ()), .now 0,
      .epollWait (.ok [{ fd := 10, EPOLLHUP := true }]), .now 0, .killer .FREEZE 20 (.ok .OK),
      .killer .TERMINATE 10 (.ok .OK)] := rfl

def killerArchive : Text.Archive (Text.fields KillerImpl.Options.serialize) {} :=
  .ptree KillerImpl.Options.serialize {} (by decide)

/-- What the killer is asked for: by the broker, and once by somebody else to kill the judge. -/
def twoRequests : List (KillerInterface.Exchange .paths) :=
  [twoRequest .FREEZE 10, twoRequest .FREEZE 20, twoRequest .UNFREEZE 20, twoRequest .TERMINATE 11,
    twoRequest .FREEZE 20, twoRequest .TERMINATE 10]

theorem twoRequests_relayed :
    KillerInterface.Relays (twoStartup ++ twoRun.1.flatMap (·.trace)) twoRequests := by
  have hstarting : ∀ e ∈ nonblocking 7 0 ++ nonblocking 8 0, ∀ act id r, e ≠ .killer act id r := by
    simp [nonblocking]
  have hbeginning : ∀ e ∈ nonblocking 9 0 ++ nonblocking 10 0 ++
      [.newTokenizer [10] true, .indeterminate .OK], ∀ act id r, e ≠ .killer act id r := by
    simp [nonblocking]
  have hturn : ∀ e ∈ [Event.now 0, .epollCreate1 (.ok ()),
      .epollCtlAdd 9 { fd := 9, EPOLLOUT := true } (.ok ()),
      .epollCtlAdd 10 { fd := 10, EPOLLIN := true } (.ok ()), .now 0,
      .epollWait (.ok [{ fd := 10, EPOLLHUP := true }]), .now 0],
      ∀ act id r, e ≠ .killer act id r := by
    simp
  have hfrozen : KillerInterface.Relays
      [.killer .FREEZE 20 (.ok .OK), .killer .TERMINATE 10 (.ok .OK)]
      [twoRequest .FREEZE 20, twoRequest .TERMINATE 10] := .answered (.answered .nil)
  have hthawed : KillerInterface.Relays (.killer .UNFREEZE 20 (.ok .OK) :: _)
      (twoRequest .UNFREEZE 20 :: twoRequest .TERMINATE 11 :: _) :=
    .answered (.foreign (.others hturn hfrozen))
  have hbegun : KillerInterface.Relays (.killer .FREEZE 20 (.ok .OK) :: _)
      (twoRequest .FREEZE 20 :: _) := .answered (.others hbeginning hthawed)
  have hstarted : KillerInterface.Relays (.killer .FREEZE 10 (.ok .OK) :: _)
      (twoRequest .FREEZE 10 :: _) := .answered (.others hstarting hbegun)
  rw [twoRun_trace]
  exact hstarted

theorem killer_acts_on_solutions_only_foreign :
    (∀ x ∈ twoRequests,
      (∀ e ∈ x.trace, e.Within (fun group ↦
        (∃ id ∈ twoSolutions.solutions, group = groupOf [[103]] id) ∧
          ∀ id ∈ [twoSolutions.broker, twoSolutions.judge, twoSolutions.killer],
            group ≠ groupOf [[103]] id)) ∧
      ∀ status, x.outcome = .returned status →
        (status = .PROTECTED ↔ ∀ id ∈ twoSolutions.solutions,
          (groupOf [[103]] x.command.id : Platform.paths.ControlGroup) ≠ groupOf [[103]] id) ∧
        (status = .PROTECTED → x.trace = [])) ∧
    (twoRequest .TERMINATE 11).outcome = .returned .PROTECTED ∧
    (∀ e ∈ twoStartup ++ twoRun.1.flatMap (·.trace), ¬ e.Refused) ∧
    (Outcome.returned () = .raised invalidConfiguration →
      SplitChar.library.Asserts "Invalid configuration.") ∧
    ∀ x ∈ twoRun.1, x.outcome = .raised invalidConfiguration →
      SplitChar.library.Asserts "Invalid configuration." := by
  have hrequests : Path KillerInterface.Serves twoKiller twoRequests twoKiller :=
    .cons (twoRequest_serves _ _) (.cons (twoRequest_serves _ _) (.cons (twoRequest_serves _ _)
      (.cons (twoRequest_serves _ _) (.cons (twoRequest_serves _ _)
        (.one (twoRequest_serves _ _))))))
  have hrun : Path Serves (ready twoOptions) twoRun.1 twoRun.2 := replay_serves _ _
  have hmain := killer_acts_on_solutions_only Platform.paths_lawful ptreeArchive
    killerArchive (by decide) (readOptions_save ptreeArchive blank_constructed _)
    (KillerImpl.readOptions_save killerArchive _) hrequests twoStartup_executes hrun
  exact ⟨hmain.1, rfl, hmain.2 twoRequests_relayed⟩

end BrokerImpl

end FlowctlGame
