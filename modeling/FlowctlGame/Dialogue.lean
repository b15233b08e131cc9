import FlowctlGame.BrokerTextInterface
import FlowctlGame.Interaction.Fifo
import FlowctlGame.Interaction.Path

namespace FlowctlGame.BrokerTextInterface

open Broker BrokerInterface Interaction Program

/-- A client with a list of calls to make, and a target on which `runOnce` is called again and
again, with the two streams between them. -/
structure Dialogue where
  todo : List Call
  waiting : Bool := false
  closed : Bool := false
  returned : List Result := []
  requests : Fifo UInt8 := .empty
  replies : Fifo UInt8 := .empty
  received : List (BrokerImpl.Command × Option Result) := []

def Dialogue.results (s : Dialogue) : List Result := s.received.filterMap Prod.snd

def start (calls : List Call) : Dialogue := { todo := calls }

inductive Move where
  | call (c : Call)
  | close
  | served (c : BrokerImpl.Command) (reply : Option Result)
  | returned (r : Result)
  | raised (e : Error)
  | failed (e : Error)

/-- What a reader may be given: what is under way, and after it the end of a closed stream. -/
def Offers (queue : Bytes) (closed : Bool) (used : List (Option UInt8)) : Prop :=
  ∃ k, used <+: queue.map some ++ (bif closed then List.replicate k none else [])

/-- One step of either party. What the target answers to a call of `end` is arbitrary. -/
inductive Step (casts : Casts) : Dialogue → Move → Dialogue → Prop
  | call {s : Dialogue} {c : Call} {rest : List Call} {text : Bytes}
      (htodo : s.todo = c :: rest) (hidle : s.waiting = false)
      (hsend : sendCommand casts (c.command casts) = .ok text) :
      Step casts s (.call c)
        { s with todo := rest, waiting := c.ends, requests := s.requests.push text }
  | close {s : Dialogue} (htodo : s.todo = []) (hidle : s.waiting = false)
      (hopen : s.closed = false) : Step casts s .close { s with closed := true }
  | quiet {s : Dialogue} {used : List (Option UInt8)} {command : Command} {ia : InputArchive}
      {c : BrokerImpl.Command} (hoffer : Offers s.requests.queue s.closed used)
      (hrecv : (recvCommand casts).Takes {} used (.returned command) ia)
      (hrun : run casts command = .ok (.quiet c)) :
      Step casts s (.served c none)
        { s with
          requests := s.requests.pop used.length
          received := s.received ++ [(c, none)] }
  | replying {s : Dialogue} {used : List (Option UInt8)} {command : Command} {ia : InputArchive}
      {c : BrokerImpl.Command} {r : Result} {text : Bytes}
      (hoffer : Offers s.requests.queue s.closed used)
      (hrecv : (recvCommand casts).Takes {} used (.returned command) ia)
      (hrun : run casts command = .ok (.replying c)) (hnamed : r.status.Named)
      (hsend : sendResult casts r = .ok text) :
      Step casts s (.served c (some r))
        { s with
          requests := s.requests.pop used.length
          replies := s.replies.push text
          received := s.received ++ [(c, some r)] }
  | raised {s : Dialogue} {used : List (Option UInt8)} {e : Error} {ia : InputArchive}
      (hoffer : Offers s.requests.queue s.closed used)
      (hrecv : (recvCommand casts).Takes {} used (.raised e) ia) :
      Step casts s (.raised e) { s with requests := s.requests.pop used.length }
  | refused {s : Dialogue} {used : List (Option UInt8)} {command : Command} {ia : InputArchive}
      {e : Error} (hoffer : Offers s.requests.queue s.closed used)
      (hrecv : (recvCommand casts).Takes {} used (.returned command) ia)
      (hrun : run casts command = .error e) :
      Step casts s (.raised e) { s with requests := s.requests.pop used.length }
  | returned {s : Dialogue} {used : List (Option UInt8)} {r : Result} {ia : InputArchive}
      (hwait : s.waiting = true) (hoffer : Offers s.replies.queue false used)
      (hrecv : (recvResult casts).Takes {} used (.returned r) ia) :
      Step casts s (.returned r)
        { s with
          waiting := false
          returned := s.returned ++ [r]
          replies := s.replies.pop used.length }
  | failed {s : Dialogue} {used : List (Option UInt8)} {e : Error} {ia : InputArchive}
      (hwait : s.waiting = true) (hoffer : Offers s.replies.queue false used)
      (hrecv : (recvResult casts).Takes {} used (.raised e) ia) :
      Step casts s (.failed e) { s with waiting := false, replies := s.replies.pop used.length }

variable {casts : Casts} {s s' : Dialogue} {used : List (Option UInt8)} {ia : InputArchive}
  {queue rest : Bytes} {closed : Bool}

theorem offers_line {α : Type} {m : Reads α} {line : Bytes} {a : α} {o : Outcome Error α}
    {ia' : InputArchive} (hline : m.Takes {} (line.map some) (.returned a) ia')
    (hoffer : Offers (line ++ rest) closed used) (h : m.Takes {} used o ia) :
    used = line.map some ∧ o = .returned a := by
  obtain ⟨k, more, hmore⟩ := hoffer
  rw [List.map_append, List.append_assoc] at hmore
  obtain ⟨hused, ho, -⟩ := h.unique hline hmore
  exact ⟨hused, ho⟩

theorem offers_nothing {α : Type} {m : Reads α} {e : Error} {o : Outcome Error α}
    {ia' : InputArchive} (heof : m.Takes {} [none] (.raised e) ia')
    (hoffer : Offers [] closed used) (h : m.Takes {} used o ia) :
    closed = true ∧ used = [none] ∧ o = .raised e := by
  obtain ⟨k, more, hmore⟩ := hoffer
  rw [List.map_nil, List.nil_append] at hmore
  cases closed with
  | false =>
    obtain ⟨rfl, rfl⟩ := List.append_eq_nil_iff.mp hmore
    obtain ⟨hused, -⟩ := h.unique heof (show [] ++ [none] = [none] ++ [] from rfl)
    cases hused
  | true =>
    cases k with
    | zero =>
      obtain ⟨rfl, rfl⟩ := List.append_eq_nil_iff.mp hmore
      obtain ⟨hused, -⟩ := h.unique heof (show [] ++ [none] = [none] ++ [] from rfl)
      cases hused
    | succ k =>
      have hlist : used ++ more = [none] ++ List.replicate k none := hmore
      obtain ⟨hused, ho, -⟩ := h.unique heof hlist
      exact ⟨rfl, hused, ho⟩

def resultText (casts : Casts) (r : Result) : Bytes :=
  if h : r.status.Named then resultLine casts r h else []

def callLine (casts : Casts) (c : Call) : Bytes := commandLine casts (c.command casts)

/-- The calls were made in order: `served` of them have been executed by the target, `pending`
are under way to it, and `unread` results are under way back. -/
structure Coherent (casts : Casts) (calls : List Call) (s : Dialogue)
    (served pending : List Call) (unread : List Result) : Prop where
  calls_eq : calls = served ++ pending ++ s.todo
  received : List.Forall₂ (fun c x ↦ x.1 = c.target ∧ x.2.isSome = c.ends) served s.received
  requests : s.requests.queue = pending.flatMap (callLine casts)
  results : s.results = s.returned ++ unread
  named : ∀ r ∈ s.results, r.status.Named
  replies : s.replies.queue = unread.flatMap (resultText casts)
  sent : s.replies.sent = s.results.flatMap (resultText casts)
  waiting : pending.countP Call.ends + unread.length = bif s.waiting then 1 else 0
  closed : s.closed = true → s.todo = [] ∧ s.waiting = false

variable {calls served pending : List Call} {unread : List Result}

theorem coherent_start (casts : Casts) (calls : List Call) :
    Coherent casts calls (start calls) [] [] [] where
  calls_eq := rfl
  received := .nil
  requests := rfl
  results := rfl
  named := by simp [start, Dialogue.results]
  replies := rfl
  sent := rfl
  waiting := rfl
  closed := fun h ↦ by cases h

theorem Coherent.recvCommand_cases (h : Coherent casts calls s served pending unread)
    {o : Outcome Error Command} (hoffer : Offers s.requests.queue s.closed used)
    (hrecv : (recvCommand casts).Takes {} used o ia) :
    (∃ c rest, pending = c :: rest ∧ used = (callLine casts c).map some ∧
      o = .returned (c.command casts)) ∨
    pending = [] ∧ s.closed = true ∧ used = [none] ∧ o = .raised .endOfFileError := by
  rw [h.requests] at hoffer
  cases pending with
  | nil =>
    obtain ⟨hclosed, hused, ho⟩ := offers_nothing (takes_recvCommand_eof casts) hoffer hrecv
    exact .inr ⟨rfl, hclosed, hused, ho⟩
  | cons c rest =>
    rw [List.flatMap_cons] at hoffer
    obtain ⟨ia', hline⟩ := takes_recvCommand casts (c.command casts)
    obtain ⟨hused, ho⟩ := offers_line hline hoffer hrecv
    exact .inl ⟨c, rest, rfl, hused, ho⟩

theorem Coherent.recvResult_cases (h : Coherent casts calls s served pending unread)
    {o : Outcome Error Result} (hoffer : Offers s.replies.queue false used)
    (hrecv : (recvResult casts).Takes {} used o ia) :
    ∃ r rest, unread = r :: rest ∧ used = (resultText casts r).map some ∧ o = .returned r := by
  have hnamed := h.named
  rw [h.replies] at hoffer
  rw [h.results] at hnamed
  cases unread with
  | nil =>
    obtain ⟨hclosed, -⟩ := offers_nothing (takes_recvResult_eof casts) hoffer hrecv
    cases hclosed
  | cons r rest =>
    have hr : r.status.Named := hnamed r (by simp)
    have htext : resultText casts r = resultLine casts r hr := dif_pos hr
    rw [List.flatMap_cons, htext] at hoffer
    obtain ⟨ia', hline⟩ := takes_recvResult casts hr
    obtain ⟨hused, ho⟩ := offers_line hline hoffer hrecv
    exact ⟨r, rest, rfl, by rw [htext, hused], ho⟩

theorem Coherent.call (h : Coherent casts calls s served pending unread) {c : Call}
    {rest : List Call} (htodo : s.todo = c :: rest) (hidle : s.waiting = false) :
    Coherent casts calls { s with
      todo := rest
      waiting := c.ends
      requests := s.requests.push (callLine casts c) } served (pending ++ [c]) unread where
  calls_eq := by simp [h.calls_eq, htodo]
  received := h.received
  requests := by simp [Fifo.push, h.requests]
  results := h.results
  named := h.named
  replies := h.replies
  sent := h.sent
  waiting := by
    have hcount := h.waiting
    rw [hidle] at hcount
    cases hc : c.ends <;> simp_all
  closed := by
    intro hclosed
    have htodo' := (h.closed hclosed).1
    rw [htodo] at htodo'
    cases htodo'

theorem Coherent.serve {c : Call} (h : Coherent casts calls s served (c :: pending) unread)
    (reply : Option Result) (hreply : reply.isSome = c.ends)
    (hnamed : ∀ r ∈ reply, r.status.Named) {replies : Fifo UInt8}
    (hreplies : replies = match reply with
      | some r => s.replies.push (resultText casts r)
      | none => s.replies) :
    Coherent casts calls { s with
      requests := s.requests.pop ((callLine casts c).map some).length
      replies := replies
      received := s.received ++ [(c.target, reply)] } (served ++ [c]) pending
        (unread ++ reply.toList) where
  calls_eq := by simp [h.calls_eq]
  received := List.rel_append h.received (.cons ⟨rfl, hreply⟩ .nil)
  requests := by simp [Fifo.pop, h.requests]
  results := by
    have hresults := h.results
    unfold Dialogue.results at hresults ⊢
    cases reply <;> simp [hresults]
  named := by
    have hold := h.named
    unfold Dialogue.results at hold ⊢
    intro r hr
    rw [List.filterMap_append, List.mem_append] at hr
    rcases hr with hr | hr
    · exact hold r hr
    · exact hnamed r (by simpa using hr)
  replies := by
    rw [hreplies]
    cases reply <;> simp [Fifo.push, h.replies]
  sent := by
    have hsent := h.sent
    unfold Dialogue.results at hsent ⊢
    rw [hreplies]
    cases reply <;> simp [hsent]
  waiting := by
    have hcount := h.waiting
    rw [List.countP_cons] at hcount
    rw [List.length_append, ← hcount, ← hreply]
    cases reply with
    | none => simp
    | some r =>
      simp only [Option.toList_some, List.length_singleton, Option.isSome_some, if_true]
      omega
  closed := h.closed

theorem Coherent.return {r : Result} (h : Coherent casts calls s served pending (r :: unread))
    (hwait : s.waiting = true) :
    Coherent casts calls { s with
      waiting := false
      returned := s.returned ++ [r]
      replies := s.replies.pop ((resultText casts r).map some).length } served pending
        unread where
  calls_eq := h.calls_eq
  received := h.received
  requests := h.requests
  results := by
    have hresults := h.results
    unfold Dialogue.results at hresults ⊢
    simp [hresults]
  named := h.named
  replies := by simp [Fifo.pop, h.replies]
  sent := h.sent
  waiting := by
    have hcount := h.waiting
    rw [hwait, List.length_cons] at hcount
    simp only [cond_true, cond_false] at hcount ⊢
    omega
  closed := fun hclosed ↦ ⟨(h.closed hclosed).1, rfl⟩

theorem Coherent.step (h : Coherent casts calls s served pending unread) {m : Move}
    (hs : Step casts s m s') :
    ∃ served' pending' unread', Coherent casts calls s' served' pending' unread' := by
  cases hs with
  | call htodo hidle hsend =>
    rw [sendCommand_eq] at hsend
    cases hsend
    exact ⟨_, _, _, h.call htodo hidle⟩
  | close htodo hidle hopen =>
    exact ⟨_, _, _, { h with closed := fun _ ↦ ⟨htodo, hidle⟩ }⟩
  | quiet hoffer hrecv hrun =>
    rcases h.recvCommand_cases hoffer hrecv with ⟨c, rest, rfl, rfl, ho⟩ | ⟨-, -, -, ho⟩
    · cases ho
      rw [run_command] at hrun
      cases hc : c.ends with
      | true => simp [hc] at hrun
      | false =>
        simp only [hc, cond_false, Except.ok.injEq, Dispatch.quiet.injEq] at hrun
        subst hrun
        exact ⟨_, _, _, h.serve none hc.symm (by simp) rfl⟩
    · cases ho
  | @replying _ _ _ _ r _ hoffer hrecv hrun hnamed hsend =>
    rcases h.recvCommand_cases hoffer hrecv with ⟨c, rest, rfl, rfl, ho⟩ | ⟨-, -, -, ho⟩
    · cases ho
      rw [run_command] at hrun
      cases hc : c.ends with
      | false => simp [hc] at hrun
      | true =>
        simp only [hc, cond_true, Except.ok.injEq, Dispatch.replying.injEq] at hrun
        subst hrun
        rw [sendResult_eq hnamed] at hsend
        cases hsend
        refine ⟨_, _, _, h.serve (some r) hc.symm (by simpa using hnamed) ?_⟩
        simp [resultText, hnamed]
    · cases ho
  | raised hoffer hrecv =>
    rcases h.recvCommand_cases hoffer hrecv with ⟨_, _, -, -, ho⟩ | ⟨rfl, -, rfl, -⟩
    · cases ho
    · exact ⟨_, _, _, { h with requests := by simp [Fifo.pop, h.requests] }⟩
  | refused hoffer hrecv hrun =>
    rcases h.recvCommand_cases hoffer hrecv with ⟨c, rest, -, -, ho⟩ | ⟨-, -, -, ho⟩
    · cases ho
      rw [run_command] at hrun
      cases hrun
    · cases ho
  | returned hwait hoffer hrecv =>
    obtain ⟨r, rest, rfl, rfl, ho⟩ := h.recvResult_cases hoffer hrecv
    cases ho
    exact ⟨_, _, _, h.return hwait⟩
  | failed hwait hoffer hrecv =>
    obtain ⟨r, rest, -, -, ho⟩ := h.recvResult_cases hoffer hrecv
    cases ho

theorem coherent_path {tr : List Move} (hp : Path (Step casts) (start calls) tr s) :
    ∃ served pending unread, Coherent casts calls s served pending unread := by
  refine hp.preserves (I := fun s ↦ ∃ served pending unread,
    Coherent casts calls s served pending unread) ?_ ⟨_, _, _, coherent_start casts calls⟩
  intro _ _ _ hs hI
  obtain ⟨_, _, _, h⟩ := hI
  exact h.step hs

theorem Coherent.received_eq (h : Coherent casts calls s served pending unread) :
    s.received.map Prod.fst = served.map Call.target := by
  have hall := h.received
  clear h
  generalize s.received = received at hall ⊢
  induction hall with
  | nil => rfl
  | cons hx _ ih => rw [List.map_cons, List.map_cons, hx.1, ih]

def isEnd : BrokerImpl.Command → Bool
  | .end' _ _ => true
  | _ => false

theorem isEnd_target (c : Call) : isEnd c.target = c.ends := by
  cases c <;> rfl

theorem Coherent.isSome_iff (h : Coherent casts calls s served pending unread) :
    ∀ x ∈ s.received, x.2.isSome = isEnd x.1 := by
  have hall := h.received
  clear h
  generalize s.received = received at hall ⊢
  induction hall with
  | nil => exact fun _ hx ↦ absurd hx List.not_mem_nil
  | cons hx _ ih =>
    refine List.forall_mem_cons.mpr ⟨?_, ih⟩
    rw [hx.1, hx.2, isEnd_target]

/-- What the two streams are for: the target is called as if the client called it directly,
and the client gets what the target returned. -/
structure Transparent (casts : Casts) (calls : List Call) (s : Dialogue) : Prop where
  received : s.received.map Prod.fst <+: calls.map Call.target
  replied : ∀ x ∈ s.received, x.2.isSome = isEnd x.1
  lines : s.replies.sent = s.results.flatMap (resultText casts)
  returned : s.returned <+: s.results
  current : s.waiting = false → s.returned = s.results
  raised : ∀ e s', Step casts s (.raised e) s' → e = .endOfFileError ∧ s.closed = true ∧
    s.received.map Prod.fst = calls.map Call.target ∧ s'.received = s.received
  failed : ∀ e s', ¬ Step casts s (.failed e) s'
  eof : s.closed = true → s.requests.queue = [] →
    (∃ s', Step casts s (.raised .endOfFileError) s') ∧
      ∀ c reply s', ¬ Step casts s (.served c reply) s'
  complete : (∀ m s', Step casts s m s' → ∃ e, m = .raised e) → s.closed = true ∧
    s.received.map Prod.fst = calls.map Call.target ∧ s.returned = s.results ∧
    s.requests.queue = []

theorem Coherent.all_received (h : Coherent casts calls s served [] unread) (htodo : s.todo = []) :
    s.received.map Prod.fst = calls.map Call.target := by
  rw [h.received_eq, h.calls_eq, htodo, List.append_nil, List.append_nil]

theorem Offers.before {queue : Bytes} {closed : Bool} {used more : List (Option UInt8)}
    (h : Offers queue closed (used ++ more)) : Offers queue closed used := by
  obtain ⟨k, hk⟩ := h
  exact ⟨k, (List.prefix_append used more).trans hk⟩

theorem Offers.after {line queue : Bytes} {closed : Bool} {more : List (Option UInt8)}
    (h : Offers (line ++ queue) closed (line.map some ++ more)) : Offers queue closed more := by
  obtain ⟨k, hk⟩ := h
  rw [List.map_append, List.append_assoc] at hk
  exact ⟨k, (List.prefix_append_right_inj _).mp hk⟩

theorem offers_refl (queue more : Bytes) (closed : Bool) :
    Offers (queue ++ more) closed (queue.map some) :=
  ⟨0, by cases closed <;> simp⟩

theorem Coherent.raised (h : Coherent casts calls s served pending unread) {e : Error}
    (hs : Step casts s (.raised e) s') : e = .endOfFileError ∧ s.closed = true ∧
      s.received.map Prod.fst = calls.map Call.target ∧ s'.received = s.received := by
  cases hs with
  | raised hoffer hrecv =>
    rcases h.recvCommand_cases hoffer hrecv with ⟨_, _, -, -, ho⟩ | ⟨rfl, hclosed, -, ho⟩
    · cases ho
    · cases ho
      exact ⟨rfl, hclosed, h.all_received (h.closed hclosed).1, rfl⟩
  | refused hoffer hrecv hrun =>
    rcases h.recvCommand_cases hoffer hrecv with ⟨c, rest, -, -, ho⟩ | ⟨-, -, -, ho⟩
    · cases ho
      rw [run_command] at hrun
      cases hrun
    · cases ho

theorem Coherent.failed (h : Coherent casts calls s served pending unread) {e : Error} :
    ¬ Step casts s (.failed e) s' := by
  intro hs
  cases hs with
  | failed hwait hoffer hrecv =>
    obtain ⟨r, rest, -, -, ho⟩ := h.recvResult_cases hoffer hrecv
    cases ho

theorem eof_of_closed (casts : Casts) (hclosed : s.closed = true)
    (hqueue : s.requests.queue = []) :
    (∃ s', Step casts s (.raised .endOfFileError) s') ∧
      ∀ c reply s', ¬ Step casts s (.served c reply) s' := by
  have hnone {o : Outcome Error Command} {used : List (Option UInt8)} {ia : InputArchive}
      (hoffer : Offers s.requests.queue s.closed used)
      (hrecv : (recvCommand casts).Takes {} used o ia) : o = .raised .endOfFileError := by
    rw [hqueue] at hoffer
    exact (offers_nothing (takes_recvCommand_eof casts) hoffer hrecv).2.2
  refine ⟨⟨_, .raised ⟨1, ?_⟩ (takes_recvCommand_eof casts)⟩, fun c reply s' hs ↦ ?_⟩
  · simp [hqueue, hclosed]
  · cases hs with
    | quiet hoffer hrecv hrun => cases hnone hoffer hrecv
    | replying hoffer hrecv hrun hnamed hsend => cases hnone hoffer hrecv

def Dialogue.called (s : Dialogue) (casts : Casts) (c : Call) : Dialogue :=
  { s with
    todo := s.todo.tail
    waiting := c.ends
    requests := s.requests.push (callLine casts c) }

def Dialogue.executed (s : Dialogue) (casts : Casts) (c : Call) (reply : Option Result) :
    Dialogue :=
  { s with
    requests := s.requests.pop ((callLine casts c).map some).length
    replies := reply.elim s.replies (fun r ↦ s.replies.push (resultText casts r))
    received := s.received ++ [(c.target, reply)] }

def Dialogue.answered (s : Dialogue) (casts : Casts) (r : Result) : Dialogue :=
  { s with
    waiting := false
    returned := s.returned ++ [r]
    replies := s.replies.pop ((resultText casts r).map some).length }

theorem step_called {c : Call} {calls' : List Call} (htodo : s.todo = c :: calls')
    (hidle : s.waiting = false) : Step casts s (.call c) (s.called casts c) := by
  have hstep : Step casts s (.call c) _ := .call htodo hidle (sendCommand_eq _)
  have htail : s.todo.tail = calls' := by rw [htodo, List.tail_cons]
  rwa [← htail] at hstep

theorem step_executed_quiet (c : Call) (hqueue : s.requests.queue = callLine casts c ++ rest)
    (hc : c.ends = false) : Step casts s (.served c.target none) (s.executed casts c none) := by
  obtain ⟨ia, hrecv⟩ := takes_recvCommand casts (c.command casts)
  have hrun := run_command casts c
  rw [hc, cond_false] at hrun
  refine .quiet ?_ hrecv hrun
  rw [hqueue]
  exact offers_refl _ _ _

theorem step_executed (c : Call) {r : Result}
    (hqueue : s.requests.queue = callLine casts c ++ rest) (hc : c.ends = true)
    (hr : r.status.Named) :
    Step casts s (.served c.target (some r)) (s.executed casts c (some r)) := by
  obtain ⟨ia, hrecv⟩ := takes_recvCommand casts (c.command casts)
  have hrun := run_command casts c
  rw [hc, cond_true] at hrun
  have htext : resultText casts r = resultLine casts r hr := dif_pos hr
  refine .replying ?_ hrecv hrun hr (htext ▸ sendResult_eq hr)
  rw [hqueue]
  exact offers_refl _ _ _

theorem step_answered {r : Result} (hwait : s.waiting = true)
    (hqueue : s.replies.queue = resultText casts r ++ rest) (hr : r.status.Named) :
    Step casts s (.returned r) (s.answered casts r) := by
  have htext : resultText casts r = resultLine casts r hr := dif_pos hr
  obtain ⟨ia, hrecv⟩ := takes_recvResult casts hr
  refine .returned hwait ?_ (htext ▸ hrecv)
  rw [hqueue]
  exact offers_refl _ _ _

theorem Coherent.serve_enabled {c : Call}
    (h : Coherent casts calls s served (c :: pending) unread) :
    ∃ reply s', Step casts s (.served c.target reply) s' := by
  cases hc : c.ends with
  | false => exact ⟨none, _, step_executed_quiet c h.requests hc⟩
  | true =>
    have hnamed : (⟨.OK, []⟩ : Result).status.Named := trivial
    exact ⟨some ⟨.OK, []⟩, _, step_executed c h.requests hc hnamed⟩

theorem Coherent.return_enabled {r : Result}
    (h : Coherent casts calls s served pending (r :: unread)) (hwait : s.waiting = true) :
    ∃ s', Step casts s (.returned r) s' :=
  ⟨_, step_answered hwait h.replies (h.named r (by simp [h.results]))⟩

theorem Coherent.complete (h : Coherent casts calls s served pending unread)
    (hstuck : ∀ m s', Step casts s m s' → ∃ e, m = .raised e) : s.closed = true ∧
      s.received.map Prod.fst = calls.map Call.target ∧ s.returned = s.results ∧
      s.requests.queue = [] := by
  have hcount := h.waiting
  cases pending with
  | cons c pending =>
    obtain ⟨reply, s', hs⟩ := h.serve_enabled
    obtain ⟨e, he⟩ := hstuck _ _ hs
    cases he
  | nil =>
    rw [List.countP_nil, Nat.zero_add] at hcount
    cases hwait : s.waiting with
    | true =>
      rw [hwait, cond_true] at hcount
      obtain ⟨r, rfl⟩ := List.length_eq_one_iff.mp hcount
      obtain ⟨s', hs⟩ := h.return_enabled hwait
      obtain ⟨e, he⟩ := hstuck _ _ hs
      cases he
    | false =>
      rw [hwait, cond_false] at hcount
      obtain rfl := List.length_eq_zero_iff.mp hcount
      have hresults := h.results
      rw [List.append_nil] at hresults
      cases htodo : s.todo with
      | cons c rest =>
        obtain ⟨e, he⟩ := hstuck _ _ (.call htodo hwait (sendCommand_eq _))
        cases he
      | nil =>
        cases hclosed : s.closed with
        | false =>
          obtain ⟨e, he⟩ := hstuck _ _ (.close htodo hwait hclosed)
          cases he
        | true => exact ⟨rfl, h.all_received htodo, hresults.symm, h.requests⟩

theorem Coherent.transparent (h : Coherent casts calls s served pending unread) :
    Transparent casts calls s where
  received := by
    rw [h.received_eq, h.calls_eq, List.append_assoc, List.map_append]
    exact List.prefix_append _ _
  replied := h.isSome_iff
  lines := h.sent
  returned := by
    rw [h.results]
    exact List.prefix_append _ _
  current := by
    intro hidle
    have hcount := h.waiting
    rw [hidle, cond_false] at hcount
    have hunread : unread = [] := List.length_eq_zero_iff.mp (by omega)
    rw [h.results, hunread, List.append_nil]
  raised := fun _ _ hs ↦ h.raised hs
  failed := fun _ _ ↦ h.failed
  eof := eof_of_closed casts
  complete := h.complete

theorem step_count {m : Move} (hs : Step casts s m s') (hm : ∀ e, m ≠ .raised e)
    (hf : ∀ e, m ≠ .failed e) :
    s'.received.length + s'.returned.length + (bif s'.closed then 1 else 0) + s.todo.length =
      s.received.length + s.returned.length + (bif s.closed then 1 else 0) +
        s'.todo.length + 1 := by
  cases hs with
  | call htodo hidle hsend =>
    simp only [htodo, List.length_cons]
    omega
  | close htodo hidle hopen =>
    simp only [hopen, cond_true, cond_false]
    omega
  | quiet hoffer hrecv hrun =>
    simp only [List.length_append, List.length_singleton]
    omega
  | replying hoffer hrecv hrun hnamed hsend =>
    simp only [List.length_append, List.length_singleton]
    omega
  | raised hoffer hrecv => exact absurd rfl (hm _)
  | refused hoffer hrecv hrun => exact absurd rfl (hm _)
  | returned hwait hoffer hrecv =>
    simp only [List.length_append, List.length_singleton]
    omega
  | failed hwait hoffer hrecv => exact absurd rfl (hf _)

theorem path_count {tr : List Move} (hp : Path (Step casts) (start calls) tr s) :
    (∀ e, .raised e ∉ tr) → tr.length + s.todo.length =
      calls.length + (s.received.length + s.returned.length + (bif s.closed then 1 else 0)) := by
  refine hp.invariant (I := fun tr s ↦ (∀ e, .raised e ∉ tr) → tr.length + s.todo.length =
    calls.length + (s.received.length + s.returned.length + (bif s.closed then 1 else 0))) ?_ ?_
  · intro _
    simp [start]
  · intro tr s m s' hp hI hs hraised
    obtain ⟨served, pending, unread, h⟩ := coherent_path hp
    have hold := hI (fun e he ↦ hraised e (List.mem_append_left _ he))
    have hm (e : Error) : m ≠ .raised e := by
      intro heq
      exact hraised e (by simp [heq])
    have hf (e : Error) : m ≠ .failed e := by
      intro heq
      rw [heq] at hs
      exact h.failed hs
    have hcount := step_count hs hm hf
    rw [List.length_append, List.length_singleton]
    omega

/-- The text channel is transparent at any point of any dialogue, and a dialogue takes no more
than three moves a call. -/
theorem text_channel_transparent {tr : List Move}
    (hp : Path (Step casts) (start calls) tr s) :
    Transparent casts calls s ∧
      ((∀ e, .raised e ∉ tr) → tr.length ≤ 3 * calls.length + 1) := by
  obtain ⟨served, pending, unread, h⟩ := coherent_path hp
  have ht := h.transparent
  refine ⟨ht, fun hraised ↦ ?_⟩
  have hcount := path_count hp hraised
  have hreceived : s.received.length ≤ calls.length := by
    have hlen := ht.received.length_le
    rwa [List.length_map, List.length_map] at hlen
  have hreturned : s.returned.length ≤ s.received.length :=
    Nat.le_trans ht.returned.length_le (List.length_filterMap_le _ _)
  have hclosed : (bif s.closed then 1 else 0) ≤ 1 := by
    cases s.closed <;> decide
  omega

def twoRounds : List Call :=
  [.begin₃ 1 [32] ⟨5, 70⟩, .send 1 [10, 92], .end₂ 1 true, .begin₁ 0, .end₁ 0]

/-- Its data look like the end of a line. -/
def firstResult : Result := ⟨.OK, [10, 32, 92]⟩

def secondResult : Result := ⟨.REAL_TIME_LIMIT_EXCEEDED, []⟩

/-- The target falls behind the client and catches up when it is waited for. -/
def afterFirst : Dialogue :=
  (((((((start twoRounds).called decimalCasts (.begin₃ 1 [32] ⟨5, 70⟩)).called decimalCasts
    (.send 1 [10, 92])).executed decimalCasts (.begin₃ 1 [32] ⟨5, 70⟩) none).called decimalCasts
    (.end₂ 1 true)).executed decimalCasts (.send 1 [10, 92]) none).executed decimalCasts
    (.end₂ 1 true) (some firstResult)).answered decimalCasts firstResult

def afterSecond : Dialogue :=
  ((((afterFirst.called decimalCasts (.begin₁ 0)).called decimalCasts (.end₁ 0)).executed
    decimalCasts (.begin₁ 0) none).executed decimalCasts (.end₁ 0) (some secondResult)).answered
    decimalCasts secondResult

def firstMoves : List Move :=
  [.call (.begin₃ 1 [32] ⟨5, 70⟩), .call (.send 1 [10, 92]),
    .served (.begin₃ 1 [32] ⟨5, 70⟩) none, .call (.end₂ 1 true), .served (.send 1 [10, 92]) none,
    .served (.end' 1 true) (some firstResult), .returned firstResult]

theorem firstMoves_path : Path (Step decimalCasts) (start twoRounds) firstMoves afterFirst :=
  .cons (step_called rfl rfl) (.cons (step_called rfl rfl)
    (.cons (step_executed_quiet (.begin₃ 1 [32] ⟨5, 70⟩) rfl rfl) (.cons (step_called rfl rfl)
    (.cons (step_executed_quiet (.send 1 [10, 92]) rfl rfl)
    (.cons (step_executed (.end₂ 1 true) (r := firstResult) (List.append_nil _).symm rfl trivial)
    (.one (step_answered (r := firstResult) rfl (List.append_nil _).symm trivial)))))))

def secondMoves : List Move :=
  [.call (.begin₁ 0), .call (.end₁ 0), .served (.begin₁ 0) none,
    .served (.end' 0 false) (some secondResult), .returned secondResult, .close]

theorem secondMoves_path : Path (Step decimalCasts) afterFirst secondMoves
    { afterSecond with closed := true } :=
  .cons (step_called rfl rfl) (.cons (step_called rfl rfl)
    (.cons (step_executed_quiet (.begin₁ 0) rfl rfl)
    (.cons (step_executed (.end₁ 0) (r := secondResult) (List.append_nil _).symm rfl trivial)
    (.cons (step_answered (r := secondResult) rfl (List.append_nil _).symm trivial)
    (.one (.close rfl rfl rfl))))))

theorem text_channel_transparent_two_rounds :
    (Transparent decimalCasts twoRounds { afterSecond with closed := true } ∧
      ((∀ e, Move.raised e ∉ firstMoves ++ secondMoves) →
        (firstMoves ++ secondMoves).length ≤ 3 * 5 + 1)) ∧
    afterSecond.returned = [firstResult, secondResult] ∧
    afterSecond.received.map Prod.fst = [.begin₃ 1 [32] ⟨5, 70⟩, .send 1 [10, 92], .end' 1 true,
      .begin₁ 0, .end' 0 false] :=
  ⟨text_channel_transparent (firstMoves_path.append secondMoves_path), rfl, rfl⟩

end FlowctlGame.BrokerTextInterface
