import FlowctlGame.Interpretation

namespace FlowctlGame.BrokerMain

open Interaction Program Broker BrokerInterface
open BrokerTextInterface (Offers Refusal Whole callLine commandLine interpret)

variable {lib : TokenizerLibrary} {casts : Casts} {b b' b₀ b₁ : BrokerImpl lib}
  {calls : List Call} {tr : List Unistd.Event}

/-- A client that holds the broker and makes the calls itself, one after the other: its system
calls and the results it gets, up to any moment. -/
inductive Direct : BrokerImpl lib → List Call → List Unistd.Event → List Result →
    Outcome Failure Empty → BrokerImpl lib → Prop
  | idle {b : BrokerImpl lib} {calls : List Call} : Direct b calls [] [] .pending b
  | done {b : BrokerImpl lib} : Direct b [] [] [] (.raised (.interface .endOfFileError)) b
  | calling {b b' : BrokerImpl lib} {c : Call} {calls : List Call} {tr : List Unistd.Event}
      (hcall : BrokerImpl.Serves b ⟨c.target, .pending, tr⟩ b') :
      Direct b (c :: calls) tr [] .pending b'
  | failed {b b' : BrokerImpl lib} {c : Call} {calls : List Call} {tr : List Unistd.Event}
      {f : Unistd.Failure} (hcall : BrokerImpl.Serves b ⟨c.target, .raised f, tr⟩ b') :
      Direct b (c :: calls) tr [] (.raised (.broker f)) b'
  | answered {b b' : BrokerImpl lib} {c : Call} {calls : List Call} {tr : List Unistd.Event}
      {r : Result} (hcall : BrokerImpl.Serves b ⟨c.target, .returned (some r), tr⟩ b') :
      Direct b (c :: calls) tr [] .pending b'
  | unnamed {b b' : BrokerImpl lib} {c : Call} {calls : List Call} {tr : List Unistd.Event}
      {r : Result} (hcall : BrokerImpl.Serves b ⟨c.target, .returned (some r), tr⟩ b')
      (hr : ¬ r.status.Named) :
      Direct b (c :: calls) tr [r] (.raised (.interface .badLexicalCast)) b'
  | next {b b' b'' : BrokerImpl lib} {c : Call} {calls : List Call} {tr tr' : List Unistd.Event}
      {reply : Option Result} {results : List Result} {o : Outcome Failure Empty}
      (hcall : BrokerImpl.Serves b ⟨c.target, .returned reply, tr⟩ b')
      (hnamed : ∀ r ∈ reply, r.status.Named) (hrest : Direct b' calls tr' results o b'') :
      Direct b (c :: calls) (tr ++ tr') (reply.toList ++ results) o b''

theorem serves_reply {c : BrokerImpl.Command} {reply : Option Result}
    (h : BrokerImpl.Serves b ⟨c, .returned reply, tr⟩ b') :
    reply.isSome = BrokerTextInterface.isEnd c := by
  obtain ⟨sol, sol', reply', -, ho, he, -⟩ := BrokerImpl.answers_cases ⟨h, reply, rfl⟩
  cases ho
  generalize hc : (BrokerImpl.Exchange.mk c (.returned reply) tr).command = command at he
  cases hc
  cases he with
  | begun hc => cases c <;> first | rfl | cases hc
  | sent => rfl
  | ended => rfl
  | terminated => rfl

/-- The calls under way to the process, the first bytes of which it has taken. -/
def Asked (casts : Casts) (calls : List Call) (input : List (Option UInt8)) : Prop :=
  Offers (calls.flatMap (callLine casts)) true input

theorem called_ends {d : Dispatch} {c : Call} {reply : Option Result} {text : List Bytes}
    (hd : d = (bif c.ends then .replying c.target else .quiet c.target))
    (hreply : reply.isSome = c.ends) (h : Replied casts d reply text) :
    text = reply.toList.map (written casts) := by
  subst hd
  cases hc : c.ends with
  | true =>
    rw [hc, cond_true] at h
    cases h with
    | nothing => rfl
    | result hsend => simp [sendResult_ok hsend]
  | false =>
    rw [hc, cond_false] at h
    cases h with
    | quiet =>
      obtain rfl : reply = none := by simpa [hc] using hreply
      rfl

theorem called_named {d : Dispatch} {c : Call} {reply : Option Result} {text : List Bytes}
    (hd : d = (bif c.ends then .replying c.target else .quiet c.target))
    (hreply : reply.isSome = c.ends) (h : Replied casts d reply text) :
    ∀ r ∈ reply, r.status.Named := by
  rintro r rfl
  have hends : c.ends = true := hreply.symm
  rw [hends, cond_true] at hd
  subst hd
  cases h with
  | result hsend =>
    by_contra hr
    simp [BrokerTextInterface.sendResult, hr] at hsend

def dispatched (c : Call) : Dispatch := bif c.ends then .replying c.target else .quiet c.target

theorem called_dispatched (c : Call) : called (dispatched c) = c.target := by
  unfold dispatched
  cases c.ends <;> rfl

theorem dispatched_replying {c : Call} {target : BrokerImpl.Command}
    (h : .replying target = dispatched c) : target = c.target := by
  rw [← called_dispatched c, ← h]
  rfl

theorem decode_call (casts : Casts) (c : Call) : ∃ line, callLine casts c = line ++ [10] ∧
    10 ∉ line ∧ BrokerTextInterface.decode casts false line = .ok (dispatched c) := by
  obtain ⟨ia, htakes⟩ := BrokerTextInterface.takes_recvCommand casts (c.command casts)
  obtain ⟨line, heq, hline⟩ : ∃ line, commandLine casts (c.command casts) = line ++ [10] ∧
      10 ∉ line := ⟨_, rfl, by simp [BrokerTextInterface.not_mem_escape]⟩
  rw [heq, List.map_append] at htakes
  have hdecode := BrokerTextInterface.takes_decode hline (.inr rfl) (List.append_nil _) htakes
  refine ⟨line, heq, hline, ?_⟩
  unfold BrokerTextInterface.decode
  cases hcommand : BrokerTextInterface.decodeCommand casts false line with
  | ok command =>
    rw [Option.isNone_some, hcommand] at hdecode
    cases hdecode.1
    dsimp only
    rw [run_command]
    rfl
  | error r =>
    rw [Option.isNone_some, hcommand] at hdecode
    obtain ⟨e, he, -⟩ := hdecode
    cases he

theorem plays_calls (casts : Casts) (calls : List Call) :
    Plays casts (calls.flatMap (callLine casts)) (calls.map dispatched) ∧
      Whole (calls.flatMap (callLine casts)) := by
  induction calls with
  | nil => exact ⟨rfl, rfl⟩
  | cons c calls ih =>
    obtain ⟨hplays, hwhole⟩ := ih
    obtain ⟨line, heq, hline, hdecode⟩ := decode_call casts c
    rw [List.flatMap_cons, heq, List.append_assoc, List.singleton_append]
    refine ⟨?_, (BrokerTextInterface.whole_line hline).mpr hwhole⟩
    rw [Plays, BrokerTextInterface.interpret_line casts hline, hdecode, hplays]
    rfl

/-- A broker that is handed the requests of such calls does what the client would do itself. -/
theorem Obeys.direct {requests : List (Except Refusal Dispatch)} {text : List Bytes}
    {o : Outcome Failure Empty} (h : Obeys casts b requests tr text o b')
    (hrequests : requests = (calls.map dispatched).map .ok ++ [.error .endOfFileError]) :
    ∃ results, Direct b calls tr results o b' ∧ text = results.map (written casts) := by
  induction h generalizing calls with
  | idle => exact ⟨[], .idle, rfl⟩
  | @refused _ e =>
    cases calls with
    | cons => cases hrequests
    | nil =>
      cases e with
      | endOfFileError => exact ⟨[], .done, rfl⟩
      | badLexicalCast => cases hrequests
      | abort msg => cases hrequests
  | calling hcall =>
    cases calls with
    | nil => cases hrequests
    | cons c calls =>
      cases hrequests
      rw [called_dispatched] at hcall
      exact ⟨[], .calling hcall, rfl⟩
  | failed hcall =>
    cases calls with
    | nil => cases hrequests
    | cons c calls =>
      cases hrequests
      rw [called_dispatched] at hcall
      exact ⟨[], .failed hcall, rfl⟩
  | answered hcall =>
    cases calls with
    | nil => cases hrequests
    | cons c calls =>
      obtain ⟨hd, -⟩ := List.cons.inj hrequests
      obtain rfl := dispatched_replying (Except.ok.inj hd)
      exact ⟨[], .answered hcall, rfl⟩
  | @unnamed _ _ _ _ _ r hcall hr =>
    cases calls with
    | nil => cases hrequests
    | cons c calls =>
      obtain ⟨hd, -⟩ := List.cons.inj hrequests
      obtain rfl := dispatched_replying (Except.ok.inj hd)
      exact ⟨[r], .unnamed hcall hr, by simp [written, hr]⟩
  | @next _ _ _ _ _ _ _ reply _ _ _ hcall hreplied _ ih =>
    cases calls with
    | nil => cases hrequests
    | cons c calls =>
      obtain ⟨hd, hrest⟩ := List.cons.inj hrequests
      obtain rfl := Except.ok.inj hd
      obtain ⟨results, hdirect, hresults⟩ := ih hrest
      rw [called_dispatched] at hcall
      have hreply : reply.isSome = c.ends := by
        rw [serves_reply hcall, BrokerTextInterface.isEnd_target]
      refine ⟨reply.toList ++ results, .next hcall (called_named rfl hreply hreplied) hdirect, ?_⟩
      rw [List.map_append, called_ends rfl hreply hreplied, hresults]

theorem Direct.length_le {results : List Result} {o : Outcome Failure Empty}
    (h : Direct b calls tr results o b') : results.length ≤ calls.countP Call.ends := by
  induction h with
  | idle | done | calling | failed | answered => exact Nat.zero_le _
  | @unnamed _ _ c _ _ r hcall =>
    have hends : c.ends = true := by
      rw [← BrokerTextInterface.isEnd_target, ← serves_reply hcall]
      rfl
    rw [List.countP_cons, if_pos hends]
    exact Nat.le_add_left 1 _
  | @next _ _ _ c _ _ _ reply _ _ hcall _ _ ih =>
    have hreply : reply.isSome = c.ends := by
      rw [serves_reply hcall, BrokerTextInterface.isEnd_target]
    rw [List.length_append, List.countP_cons, ← hreply, Nat.add_comm]
    cases reply with
    | none => exact ih
    | some r => exact Nat.add_le_add_right ih 1

theorem Direct.named {results : List Result} {o : Outcome Failure Empty}
    (h : Direct b calls tr results o b') (ho : o = .pending) :
    ∀ r ∈ results, r.status.Named := by
  induction h with
  | idle | done | calling | failed | answered => exact List.forall_mem_nil _
  | unnamed => cases ho
  | next _ hnamed _ ih =>
    exact List.forall_mem_append.mpr ⟨fun r hr ↦ hnamed r (Option.mem_toList.mp hr), ih ho⟩

inductive Client (options : BrokerImpl.Options) (calls : List Call) :
    List Unistd.Event → List Result → Outcome Failure Empty → BrokerImpl lib → Prop
  | constructing {tr : List Unistd.Event} {b : BrokerImpl lib}
      (hrun : BrokerImpl.construct.Executes (BrokerImpl.new options) tr .pending b) :
      Client options calls tr [] .pending b
  | crashed {tr : List Unistd.Event} {f : Unistd.Failure} {b : BrokerImpl lib}
      (hrun : BrokerImpl.construct.Executes (BrokerImpl.new options) tr (.raised f) b) :
      Client options calls tr [] (.raised (.broker f)) b
  | started {startup tr : List Unistd.Event} {results : List Result} {o : Outcome Failure Empty}
      {b₀ b : BrokerImpl lib} (hstarted : BrokerImpl.Started options startup b₀)
      (hdirect : Direct b₀ calls tr results o b) :
      Client options calls (startup ++ tr) results o b

theorem Client.length_le {options : BrokerImpl.Options} {results : List Result}
    {o : Outcome Failure Empty} (h : Client options calls tr results o b) :
    results.length ≤ calls.countP Call.ends := by
  cases h with
  | constructing | crashed => exact Nat.zero_le _
  | started _ hdirect => exact hdirect.length_le

theorem Client.named {options : BrokerImpl.Options} {results : List Result}
    {o : Outcome Failure Empty} (h : Client options calls tr results o b) (ho : o = .pending) :
    ∀ r ∈ results, r.status.Named := by
  cases h with
  | constructing | crashed => exact List.forall_mem_nil _
  | started _ hdirect => exact hdirect.named ho

theorem Direct.answers {results : List Result} {o : Outcome Failure Empty}
    (h : Direct b calls tr results o b') (ho : o = .raised (.interface .endOfFileError)) :
    ∃ answered, Path BrokerImpl.Answers b answered b' ∧
      answered.map (·.command) = calls.map Call.target ∧ answered.flatMap (·.trace) = tr ∧
        results.length = calls.countP Call.ends := by
  induction h with
  | idle => cases ho
  | done => exact ⟨[], .nil _, rfl, rfl, rfl⟩
  | calling => cases ho
  | failed => cases ho
  | answered => cases ho
  | unnamed => cases ho
  | @next _ _ _ c _ tr _ reply _ _ hcall _ _ ih =>
    obtain ⟨answered, hpath, hcommands, htraces, hlength⟩ := ih ho
    have hreply : reply.isSome = c.ends := by
      rw [serves_reply hcall, BrokerTextInterface.isEnd_target]
    refine ⟨⟨c.target, .returned reply, tr⟩ :: answered, .cons ⟨hcall, reply, rfl⟩ hpath,
      ?_, ?_, ?_⟩
    · rw [List.map_cons, List.map_cons, hcommands]
    · rw [List.flatMap_cons, htraces]
    · rw [List.length_append, hlength, List.countP_cons, ← hreply, Nat.add_comm]
      cases reply <;> rfl

/-- The process is a client at the other end of the judge's stream: from what it is sent it
makes the calls that the judge makes, in order and each once, and what it writes back is what
they return. -/
structure Transparent (casts : Casts) (options : BrokerImpl.Options) (calls : List Call)
    (tr : List Event) (o : Outcome String ℕ) (b : BrokerImpl lib) : Prop where
  client : ∃ results f, Client options calls (systems tr) results f b ∧
    outputs tr = results.map (written casts) ∧ o = exits f
  finished : none ∈ inputs tr → o = .returned 0 ∧
    (outputs tr).length = calls.countP Call.ends ∧
      ∃ startup b₀ answered, BrokerImpl.Started options startup b₀ ∧
        Path BrokerImpl.Answers b₀ answered b ∧
          answered.map (·.command) = calls.map Call.target ∧
            systems tr = startup ++ answered.flatMap (·.trace)

theorem Operates.client {options : BrokerImpl.Options}
    {requests : List (Except Refusal Dispatch)} {text : List Bytes} {o : Outcome Failure Empty}
    (h : Operates casts options requests tr text o b)
    (hrequests : requests = (calls.map dispatched).map .ok ++ [.error .endOfFileError]) :
    ∃ results, Client options calls tr results o b ∧ text = results.map (written casts) := by
  cases h with
  | constructing hrun => exact ⟨[], .constructing hrun, rfl⟩
  | crashed hrun => exact ⟨[], .crashed hrun, rfl⟩
  | started hstarted hobeys =>
    obtain ⟨results, hdirect, hresults⟩ := hobeys.direct hrequests
    exact ⟨results, .started hstarted hdirect, hresults⟩

theorem transparent {options : BrokerImpl.Options} {tr : List Event} {f : Outcome Failure Empty}
    (hcourse : Course casts (BrokerImpl.new options) tr f b)
    (hasked : Asked casts calls (inputs tr)) :
    Transparent casts options calls tr (exits f) b := by
  obtain ⟨hplays, hwhole⟩ := plays_calls casts calls
  obtain ⟨hoperates, hend⟩ := operates hcourse hasked
  obtain ⟨results, hclient, hresults⟩ := hoperates.client hplays
  refine ⟨⟨results, f, hclient, hresults, rfl⟩, fun hnone ↦ ?_⟩
  obtain ⟨rfl, -⟩ := hend hwhole hnone
  generalize systems tr = events at hclient ⊢
  cases hclient with
  | started hstarted hdirect =>
    obtain ⟨answered, hpath, hcommands, rfl, hlength⟩ := hdirect.answers rfl
    refine ⟨rfl, ?_, _, _, answered, hstarted, hpath, hcommands, rfl⟩
    rw [hresults, List.length_map, hlength]

/-- At any moment of any run of the process to which such calls are under way. -/
theorem process_transparent {options : BrokerImpl.Options} {tr : List Event}
    {o : Outcome String ℕ} (h : (main casts).Executes (BrokerImpl.new options) tr o b)
    (hasked : Asked casts calls (inputs tr)) : Transparent casts options calls tr o b := by
  obtain ⟨f, hcourse, rfl⟩ := main_spec (BrokerImpl.new options) tr o b h
  exact transparent hcourse hasked

/-- The judge asks for a line, which the solution writes at once, and closes its stream. -/
def lineSession : Execution Event (BrokerImpl SplitChar.library) String ℕ :=
  (main decimalCasts).run (BrokerImpl.new BrokerImpl.Options.single)
    (quiet 5 ++ typed (.begin₁ 0) ++ quiet 1 ++ typed (.end₁ 0) ++ List.replicate 11 line ++
      quiet 2)
where
  quiet (n : ℕ) : List Answer := List.replicate n {}
  typed (c : Call) : List Answer := (callLine decimalCasts c).map (fun c ↦ { input := some c })
  line : Answer := { system := {
    epollWait := .ok [{ fd := 5, EPOLLIN := true }]
    read := .ok [97, 10] } }

theorem lineSession_inputs : inputs lineSession.trace =
    ([.begin₁ 0, .end₁ 0].flatMap (callLine decimalCasts)).map some ++ [none] := by
  decide +kernel

theorem process_transparent_line : Transparent decimalCasts BrokerImpl.Options.single
    [.begin₁ 0, .end₁ 0] lineSession.trace lineSession.outcome lineSession.state := by
  have hasked : Asked decimalCasts [.begin₁ 0, .end₁ 0] (inputs lineSession.trace) := by
    rw [lineSession_inputs]
    exact ⟨1, List.prefix_refl _⟩
  exact process_transparent (executes_run _ _ _) hasked

end FlowctlGame.BrokerMain
