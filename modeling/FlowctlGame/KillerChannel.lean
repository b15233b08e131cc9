import FlowctlGame.KillerStreamInterface

namespace FlowctlGame.KillerStreamInterface

open BrokerTextInterface (Offers offers_refl)
open Interaction Program Unistd

variable {Id : Type} {layouts : Layouts Id}

/-- A client with a list of calls to make, and a target on which `runOnce` is called again and
again, with the two streams between them. In `calling` is the call that waits for its reply,
with what has been done for it. -/
structure Session (Id : Type) where
  todo : List (Command Id)
  calling : Option (Command Id × List (Event Id)) := none
  closed : Bool := false
  returned : List Killer.Status := []
  requests : Fifo UInt8 := .empty
  replies : Fifo UInt8 := .empty
  received : List (Command Id × Killer.Status) := []

def start (calls : List (Command Id)) : Session Id := { todo := calls }

/-- The client is gone, and `n` bytes of its requests are all that is left. -/
def truncated (layouts : Layouts Id) (records : List (Command Id × Bytes)) (n : ℕ) :
    Session Id where
  todo := []
  closed := true
  requests := Fifo.empty.push ((records.flatMap layouts.command.record).take n)

def Session.pass (s : Session Id) (tr : List (Event Id)) : Session Id :=
  { s with
    requests := s.requests.pop (input tr).length
    replies := s.replies.push (output tr)
    received := s.received ++ asked tr }

def Session.advance (s : Session Id) (tr : List (Event Id)) : Session Id :=
  { s with
    requests := s.requests.push (output tr)
    replies := s.replies.pop (input tr).length }

inductive Move (Id : Type) where
  | call (command : Command Id)
  | close
  | served (tr : List (Event Id))
  | returned (status : Killer.Status)
  | raised (e : Exception)
  | failed (e : Exception)

/-- One step of either party. A call of the client's is an execution of `request` in two
phases, up to the wait for the reply and to the end; the target's is a whole `runOnce`, and what
its killer returns is arbitrary. -/
inductive Step (layouts : Layouts Id) : Session Id → Move Id → Session Id → Prop
  | call {s : Session Id} {command : Command Id} {rest : List (Command Id)}
      {tr : List (Event Id)} (htodo : s.todo = command :: rest) (hidle : s.calling = none)
      (hoffer : Offers s.replies.queue false (input tr))
      (hrun : (request layouts command).Executes () tr .pending ()) (hbegun : tr ≠ []) :
      Step layouts s (.call command)
        { s.advance tr with todo := rest, calling := some (command, tr) }
  | close {s : Session Id} (htodo : s.todo = []) (hidle : s.calling = none)
      (hopen : s.closed = false) : Step layouts s .close { s with closed := true }
  | served {s : Session Id} {tr : List (Event Id)}
      (hoffer : Offers s.requests.queue s.closed (input tr))
      (hrun : (runOnce layouts).Executes () tr (.returned ()) ())
      (hworks : ∀ e ∈ tr, e.Works) : Step layouts s (.served tr) (s.pass tr)
  | raised {s : Session Id} {tr : List (Event Id)} {e : Exception}
      (hoffer : Offers s.requests.queue s.closed (input tr))
      (hrun : (runOnce layouts).Executes () tr (.raised e) ())
      (hworks : ∀ e ∈ tr, e.Works) : Step layouts s (.raised e) (s.pass tr)
  | returned {s : Session Id} {command : Command Id} {made tr : List (Event Id)}
      {status : Killer.Status} (hcalling : s.calling = some (command, made))
      (hoffer : Offers s.replies.queue false (input tr))
      (hrun : (request layouts command).Executes () (made ++ tr) (.returned status) ()) :
      Step layouts s (.returned status)
        { s.advance tr with calling := none, returned := s.returned ++ [status] }
  | failed {s : Session Id} {command : Command Id} {made tr : List (Event Id)} {e : Exception}
      (hcalling : s.calling = some (command, made))
      (hoffer : Offers s.replies.queue false (input tr))
      (hrun : (request layouts command).Executes () (made ++ tr) (.raised e) ()) :
      Step layouts s (.failed e) { s.advance tr with calling := none }

variable {s s' : Session Id} {queue bytes : Bytes} {closed : Bool} {tr : List (Event Id)}
  {calls : List (Command Id)} {pending : List (Command Id × Bytes)}
  {unread : List (Killer.Status × Bytes)} {tail : Bytes}

theorem offers_cons {b : UInt8} {used : List (Option UInt8)}
    (h : Offers queue closed (some b :: used)) :
    ∃ rest, queue = b :: rest ∧ Offers rest closed used := by
  obtain ⟨k, more, hmore⟩ := h
  cases queue with
  | nil => cases closed <;> cases k <;> cases hmore
  | cons q rest =>
    rw [List.map_cons, List.cons_append, List.cons_append, List.cons.injEq] at hmore
    obtain ⟨hq, hmore⟩ := hmore
    exact ⟨rest, by rw [Option.some.inj hq], k, more, hmore⟩

theorem offers_bytes (h : Offers queue closed (bytes.map some)) :
    ∃ rest, queue = bytes ++ rest := by
  induction bytes generalizing queue with
  | nil => exact ⟨queue, rfl⟩
  | cons b bytes ih =>
    obtain ⟨_, rfl, hrest⟩ := offers_cons h
    obtain ⟨rest, rfl⟩ := ih hrest
    exact ⟨rest, rfl⟩

theorem offers_end (h : Offers queue closed (bytes.map some ++ [none])) :
    queue = bytes ∧ closed = true := by
  induction bytes generalizing queue with
  | nil =>
    obtain ⟨k, more, hmore⟩ := h
    cases queue with
    | nil =>
      cases closed with
      | false => cases hmore
      | true => exact ⟨rfl, rfl⟩
    | cons q rest => cases hmore
  | cons b bytes ih =>
    obtain ⟨rest, rfl, hrest⟩ := offers_cons h
    obtain ⟨rfl, hclosed⟩ := ih hrest
    exact ⟨rfl, hclosed⟩

theorem offers_whole (bytes : Bytes) : Offers bytes true (bytes.map some ++ [none]) :=
  ⟨1, List.prefix_refl _⟩

def Answered (layouts : Layouts Id) (statuses : List Killer.Status) (bytes : Bytes) : Prop :=
  ∃ answers : List (Killer.Status × Bytes), answers.map Prod.fst = statuses ∧
    bytes = answers.flatMap layouts.status.record

/-- The calls were made in order: those `received` have been executed, `pending` are under way
to the target, with a part of another one if the stream ends in it, and `unread` replies are
under way back. -/
structure Coherent (layouts : Layouts Id) (calls : List (Command Id)) (s : Session Id)
    (pending : List (Command Id × Bytes)) (unread : List (Killer.Status × Bytes))
    (tail : Bytes) : Prop where
  calls_eq : calls = s.received.map Prod.fst ++ pending.map Prod.fst ++ s.todo
  requests : s.requests.queue = pending.flatMap layouts.command.record ++ tail
  tail_lt : tail.length < layouts.command.size
  statuses : s.received.map Prod.snd = s.returned ++ unread.map Prod.fst
  replies : s.replies.queue = unread.flatMap layouts.status.record
  sent : Answered layouts (s.received.map Prod.snd) s.replies.sent

theorem record_first {α : Type} {layout : Layout UInt8 α} {xs : List (α × Bytes)} {rest : Bytes}
    (htail : tail.length < layout.size) (hlen : bytes.length = layout.size)
    (heq : xs.flatMap layout.record ++ tail = bytes ++ rest) :
    ∃ x ys, xs = x :: ys ∧ bytes = layout.record x := by
  cases xs with
  | nil =>
    have hle := congrArg List.length heq
    rw [List.flatMap_nil, List.nil_append, List.length_append] at hle
    omega
  | cons x ys =>
    rw [List.flatMap_cons, List.append_assoc] at heq
    have hrecord := List.append_inj_left heq ((layout.length_record x).trans hlen.symm)
    exact ⟨x, ys, rfl, hrecord.symm⟩

def serving (layouts : Layouts Id) (x : Command Id × Bytes) (status : Killer.Status)
    (padding : Bytes) : List (Event Id) :=
  reads (layouts.command.record x) ++ [.killer x.1.type x.1.id status,
    .write (layouts.status.bytes status padding) (.ok ())]

theorem Coherent.served (h : Coherent layouts calls s pending unread tail)
    (hs : Step layouts s (.served tr) s') :
    ∃ x rest status padding, pending = x :: rest ∧ tr = serving layouts x status padding ∧
      s' = s.pass tr := by
  cases hs with
  | served hoffer hrun hworks =>
    have hpass := runOnce_spec _ _ _ _ hrun (by simp) hworks
    cases hpass with
    | served bytes padding status hlen =>
      rw [input_served] at hoffer
      obtain ⟨rest, hqueue⟩ := offers_bytes hoffer
      rw [h.requests] at hqueue
      obtain ⟨x, ys, rfl, rfl⟩ := record_first h.tail_lt hlen hqueue
      refine ⟨x, ys, status, padding, rfl, ?_, rfl⟩
      rw [layouts.command.value_record]
      rfl

theorem Coherent.ended (h : Coherent layouts calls s pending unread tail) {e : Exception}
    (hs : Step layouts s (.raised e) s') : pending = [] ∧ s.closed = true ∧
      e = .endOfFileError ∧ s' = s.pass (reads tail ++ [.read none]) := by
  cases hs with
  | raised hoffer hrun hworks =>
    have hpass := runOnce_spec _ _ _ _ hrun (by simp) hworks
    cases hpass with
    | ended bytes hlen =>
      rw [input_ended] at hoffer
      obtain ⟨hqueue, hclosed⟩ := offers_end hoffer
      rw [h.requests] at hqueue
      cases pending with
      | nil =>
        obtain rfl : tail = bytes := hqueue
        exact ⟨rfl, hclosed, rfl, rfl⟩
      | cons x rest =>
        have hle := congrArg List.length hqueue
        have hrecord := layouts.command.length_record x
        rw [List.flatMap_cons, List.append_assoc, List.length_append] at hle
        omega

theorem Coherent.serve {x : Command Id × Bytes}
    (h : Coherent layouts calls s (x :: pending) unread tail) (status : Killer.Status)
    (padding : Bytes) :
    Coherent layouts calls (s.pass (serving layouts x status padding)) pending
      (unread ++ [(status, padding)]) tail where
  calls_eq := by simp [h.calls_eq, Session.pass, serving]
  requests := by simp [h.requests, Session.pass, serving, Fifo.pop]
  tail_lt := h.tail_lt
  statuses := by simp [Session.pass, serving, h.statuses]
  replies := by
    simp only [Session.pass, serving, output_served, Fifo.push, h.replies, List.flatMap_append]
    rw [List.flatMap_singleton]
    rfl
  sent := by
    obtain ⟨answers, hanswers, hsent⟩ := h.sent
    refine ⟨answers ++ [(status, padding)], by simp [hanswers, Session.pass, serving], ?_⟩
    simp only [Session.pass, serving, output_served, Fifo.sent_push, hsent, List.flatMap_append]
    rw [List.flatMap_singleton]
    rfl

theorem Coherent.end (h : Coherent layouts calls s [] unread tail) :
    Coherent layouts calls (s.pass (reads tail ++ [.read none])) [] unread [] where
  calls_eq := by simp [h.calls_eq, Session.pass]
  requests := by simp [h.requests, Session.pass, Fifo.pop]
  tail_lt := layouts.command.size_pos
  statuses := by simp [Session.pass, h.statuses]
  replies := by simp [Session.pass, Fifo.push, h.replies]
  sent := by simpa [Session.pass] using h.sent

/-- A call that the client has made is under way in one of the two streams, or done. -/
structure InStep (layouts : Layouts Id) (calls : List (Command Id)) (s : Session Id)
    (pending : List (Command Id × Bytes)) (unread : List (Killer.Status × Bytes)) : Prop
    extends Coherent layouts calls s pending unread [] where
  balance : pending.length + unread.length = bif s.calling.isSome then 1 else 0
  made : ∀ x ∈ s.calling, ∃ padding,
    x.2 = [.write (layouts.command.bytes x.1 padding) (.ok ())]
  closed : s.closed = true → s.todo = [] ∧ s.calling = none

theorem inStep_start (layouts : Layouts Id) (calls : List (Command Id)) :
    InStep layouts calls (start calls) [] [] where
  calls_eq := rfl
  requests := rfl
  tail_lt := layouts.command.size_pos
  statuses := rfl
  replies := rfl
  sent := ⟨[], rfl, rfl⟩
  balance := rfl
  made := fun _ h ↦ by cases h
  closed := fun h ↦ by cases h

def Session.made (layouts : Layouts Id) (s : Session Id) (command : Command Id)
    (rest : List (Command Id)) (padding : Bytes) : Session Id :=
  { s.advance [.write (layouts.command.bytes command padding) (.ok ())] with
    todo := rest
    calling := some (command, [.write (layouts.command.bytes command padding) (.ok ())]) }

theorem InStep.call {command : Command Id} {rest : List (Command Id)}
    (h : InStep layouts calls s pending unread) (htodo : s.todo = command :: rest)
    (hidle : s.calling = none) (padding : Bytes) :
    InStep layouts calls (s.made layouts command rest padding)
      (pending ++ [(command, padding)]) unread where
  calls_eq := by simp [h.calls_eq, htodo, Session.made, Session.advance]
  requests := by
    simp [h.requests, Session.made, Session.advance, Fifo.push, Layout.record, output_write]
  tail_lt := h.tail_lt
  statuses := h.statuses
  replies := h.replies
  sent := h.sent
  balance := by
    have hbalance := h.balance
    rw [hidle, Option.isSome_none, cond_false] at hbalance
    rw [List.length_append, List.length_singleton]
    change _ = 1
    omega
  made := by
    intro x hx
    cases hx
    exact ⟨padding, rfl⟩
  closed := by
    intro hclosed
    have htodo' := (h.closed hclosed).1
    rw [htodo] at htodo'
    cases htodo'

theorem InStep.return {x : Killer.Status × Bytes} {made : Command Id × List (Event Id)}
    (h : InStep layouts calls s pending (x :: unread)) (hcalling : s.calling = some made) :
    InStep layouts calls
      { s.advance (reads (layouts.status.record x)) with
        calling := none
        returned := s.returned ++ [x.1] } pending unread where
  calls_eq := h.calls_eq
  requests := by simp [h.requests, Session.advance, Fifo.push, (reads_spec _).2.1]
  tail_lt := h.tail_lt
  statuses := by simp [h.statuses, Session.advance]
  replies := by simp [h.replies, Session.advance, Fifo.pop, input_reads]
  sent := h.sent
  balance := by
    have hbalance := h.balance
    rw [hcalling, List.length_cons, Option.isSome_some, cond_true] at hbalance
    change _ = 0
    omega
  made := fun _ h ↦ by cases h
  closed := fun hclosed ↦ ⟨(h.closed hclosed).1, rfl⟩

theorem InStep.serve {x : Command Id × Bytes}
    (h : InStep layouts calls s (x :: pending) unread) (status : Killer.Status)
    (padding : Bytes) :
    InStep layouts calls (s.pass (serving layouts x status padding)) pending
      (unread ++ [(status, padding)]) where
  toCoherent := h.toCoherent.serve status padding
  balance := by
    have hbalance : pending.length + 1 + unread.length =
        bif s.calling.isSome then 1 else 0 := h.balance
    have hcalling : (s.pass (serving layouts x status padding)).calling = s.calling := rfl
    rw [hcalling, ← hbalance, List.length_append, List.length_singleton]
    omega
  made := h.made
  closed := h.closed

theorem InStep.end (h : InStep layouts calls s [] unread) :
    InStep layouts calls (s.pass (reads [] ++ [.read none])) [] unread where
  toCoherent := h.toCoherent.end
  balance := h.balance
  made := h.made
  closed := h.closed

theorem InStep.call_cases (h : InStep layouts calls s pending unread) (hidle : s.calling = none)
    {command : Command Id} (hoffer : Offers s.replies.queue false (input tr))
    (hrun : (request layouts command).Executes () tr .pending ()) (hbegun : tr ≠ []) :
    ∃ padding, tr = [.write (layouts.command.bytes command padding) (.ok ())] := by
  have hunread : unread = [] := by
    have hbalance := h.balance
    rw [hidle, Option.isSome_none, cond_false] at hbalance
    exact List.length_eq_zero_iff.mp (by omega)
  have hreplies : s.replies.queue = [] := by rw [h.replies, hunread, List.flatMap_nil]
  cases request_spec layouts command _ _ _ hrun with
  | unsent => exact absurd rfl hbegun
  | sent padding hgot =>
    cases hgot with
    | waiting bytes hlen =>
      have hinput : Offers s.replies.queue false (bytes.map some) := by
        rw [← input_reads]
        exact hoffer
      obtain ⟨rest, hqueue⟩ := offers_bytes hinput
      rw [hreplies] at hqueue
      obtain ⟨rfl, -⟩ := List.append_eq_nil_iff.mp hqueue.symm
      exact ⟨padding, rfl⟩

/-- A call that has been made reads a reply whole, and meets no end of its stream. -/
theorem InStep.recv_cases (h : InStep layouts calls s pending unread) {command : Command Id}
    {made : List (Event Id)} (hcalling : s.calling = some (command, made))
    {o : Outcome Exception Killer.Status} (hoffer : Offers s.replies.queue false (input tr))
    (hrun : (request layouts command).Executes () (made ++ tr) o ()) (hfin : o ≠ .pending) :
    ∃ x rest, unread = x :: rest ∧ o = .returned x.1 ∧ tr = reads (layouts.status.record x) := by
  obtain ⟨padding, hmade⟩ := h.made _ hcalling
  obtain rfl : made = [.write (layouts.command.bytes command padding) (.ok ())] := hmade
  have hrequested := request_spec layouts command _ _ _ hrun
  generalize hall : [Event.write (layouts.command.bytes command padding) (.ok ())] ++ tr = all
    at hrequested
  cases hrequested with
  | unsent => cases hall
  | unwritable data e => cases hall
  | sent padding' hgot =>
    obtain rfl : tr = _ := (List.cons.inj hall).2
    cases hgot with
    | object bytes hlen =>
      rw [input_reads] at hoffer
      obtain ⟨rest, hqueue⟩ := offers_bytes hoffer
      rw [h.replies, ← List.append_nil (List.flatMap _ _)] at hqueue
      have hpos : ([] : Bytes).length < layouts.status.size := layouts.status.size_pos
      obtain ⟨x, ys, rfl, rfl⟩ := record_first hpos hlen hqueue
      exact ⟨x, ys, rfl, by rw [layouts.status.value_record], rfl⟩
    | ended bytes hlen =>
      rw [input_ended] at hoffer
      cases (offers_end hoffer).2
    | waiting bytes hlen => exact absurd rfl hfin

theorem InStep.step (h : InStep layouts calls s pending unread) {m : Move Id}
    (hs : Step layouts s m s') : ∃ pending' unread', InStep layouts calls s' pending' unread' := by
  cases hs with
  | call htodo hidle hoffer hrun hbegun =>
    obtain ⟨padding, rfl⟩ := h.call_cases hidle hoffer hrun hbegun
    exact ⟨_, _, h.call htodo hidle padding⟩
  | close htodo hidle hopen => exact ⟨_, _, { h with closed := fun _ ↦ ⟨htodo, hidle⟩ }⟩
  | served hoffer hrun hworks =>
    obtain ⟨x, rest, status, padding, rfl, rfl, -⟩ := h.served (.served hoffer hrun hworks)
    exact ⟨_, _, h.serve status padding⟩
  | raised hoffer hrun hworks =>
    obtain ⟨rfl, -, -, hs'⟩ := h.ended (.raised hoffer hrun hworks)
    rw [hs']
    exact ⟨_, _, h.end⟩
  | returned hcalling hoffer hrun =>
    obtain ⟨x, rest, rfl, ho, rfl⟩ :=
      h.recv_cases hcalling hoffer hrun (fun heq ↦ by cases heq)
    cases ho
    exact ⟨_, _, h.return hcalling⟩
  | failed hcalling hoffer hrun =>
    obtain ⟨x, rest, -, ho, -⟩ := h.recv_cases hcalling hoffer hrun (fun heq ↦ by cases heq)
    cases ho

theorem inStep_path {moves : List (Move Id)}
    (hp : Path (Step layouts) (start calls) moves s) :
    ∃ pending unread, InStep layouts calls s pending unread := by
  refine hp.preserves (I := fun s ↦ ∃ pending unread, InStep layouts calls s pending unread) ?_
    ⟨_, _, inStep_start layouts calls⟩
  intro _ _ _ hs hI
  obtain ⟨_, _, h⟩ := hI
  exact h.step hs

section Enabled

theorem works_reads (bytes : Bytes) : ∀ e ∈ (reads bytes : List (Event Id)), e.Works := by
  simp [reads, Event.Works]

theorem Coherent.serve_enabled {x : Command Id × Bytes}
    (h : Coherent layouts calls s (x :: pending) unread tail) (status : Killer.Status) :
    Step layouts s (.served (serving layouts x status []))
      (s.pass (serving layouts x status [])) := by
  refine .served ?_ (performs_runOnce layouts x status []).executes ?_
  · rw [serving, input_served, h.requests, List.flatMap_cons, List.append_assoc]
    exact offers_refl _ _ _
  · exact List.forall_mem_append.mpr ⟨works_reads _, by simp [Event.Works]⟩

theorem Coherent.end_enabled (h : Coherent layouts calls s [] unread tail)
    (hclosed : s.closed = true) :
    Step layouts s (.raised .endOfFileError) (s.pass (reads tail ++ [.read none])) := by
  refine .raised ?_ (performs_recvBytes_ended layouts.command h.tail_lt).bind_raised.executes ?_
  · rw [input_ended, h.requests, hclosed]
    exact offers_whole tail
  · exact List.forall_mem_append.mpr ⟨works_reads _, by simp [Event.Works]⟩

theorem InStep.return_enabled {x : Killer.Status × Bytes} {made : Command Id × List (Event Id)}
    (h : InStep layouts calls s pending (x :: unread)) (hcalling : s.calling = some made) :
    Step layouts s (.returned x.1)
      { s.advance (reads (layouts.status.record x)) with
        calling := none
        returned := s.returned ++ [x.1] } := by
  obtain ⟨command, made⟩ := made
  obtain ⟨padding, hmade⟩ := h.made _ hcalling
  obtain rfl : made = [.write (layouts.command.bytes command padding) (.ok ())] := hmade
  refine .returned hcalling ?_ (performs_request layouts command padding x).executes
  rw [input_reads, h.replies, List.flatMap_cons]
  exact offers_refl _ _ _

theorem call_enabled (layouts : Layouts Id) {command : Command Id} {rest : List (Command Id)}
    (htodo : s.todo = command :: rest) (hidle : s.calling = none) (padding : Bytes) :
    Step layouts s (.call command) (s.made layouts command rest padding) :=
  .call htodo hidle (offers_refl [] _ _) (request_begun layouts command padding)
    (List.cons_ne_nil _ _)

end Enabled

/-- What the channel is for: the target is called as if the client called it directly, and the
client gets what the target returned. -/
structure Transparent (layouts : Layouts Id) (calls : List (Command Id)) (s : Session Id) :
    Prop where
  received : s.received.map Prod.fst <+: calls
  returned : s.returned <+: s.received.map Prod.snd
  answered : Answered layouts (s.received.map Prod.snd) s.replies.sent
  current : s.calling = none → s.received.map Prod.fst ++ s.todo = calls ∧
    s.returned = s.received.map Prod.snd ∧ s.requests.queue = [] ∧ s.replies.queue = []
  raised : ∀ e s', Step layouts s (.raised e) s' → e = .endOfFileError ∧ s.closed = true ∧
    s.received.map Prod.fst = calls ∧ s'.received = s.received ∧ s'.replies.sent = s.replies.sent
  failed : ∀ e s', ¬ Step layouts s (.failed e) s'
  complete : (∀ m s', Step layouts s m s' → ∃ e, m = .raised e) → s.closed = true ∧
    s.received.map Prod.fst = calls ∧ s.returned = s.received.map Prod.snd

/-- The target with a stream of which the commands `calls` are whole, and its end. -/
structure Truncated (layouts : Layouts Id) (calls : List (Command Id)) (s : Session Id) :
    Prop where
  received : s.received.map Prod.fst <+: calls
  answered : Answered layouts (s.received.map Prod.snd) s.replies.sent
  serves : s.received.map Prod.fst ≠ calls → ∃ tr s', Step layouts s (.served tr) s'
  ends : s.received.map Prod.fst = calls →
    (∃ s', Step layouts s (.raised .endOfFileError) s') ∧ ∀ tr s', ¬ Step layouts s (.served tr) s'
  raised : ∀ e s', Step layouts s (.raised e) s' → e = .endOfFileError ∧
    s.received.map Prod.fst = calls ∧ s'.received = s.received ∧ s'.replies.sent = s.replies.sent
  alone : ∀ m s', Step layouts s m s' → (∃ tr, m = .served tr) ∨ ∃ e, m = .raised e

theorem Coherent.received_prefix (h : Coherent layouts calls s pending unread tail) :
    s.received.map Prod.fst <+: calls :=
  ⟨pending.map Prod.fst ++ s.todo, by rw [h.calls_eq, List.append_assoc]⟩

theorem Coherent.raised (h : Coherent layouts calls s pending unread tail) {e : Exception}
    (hs : Step layouts s (.raised e) s') : e = .endOfFileError ∧ s.closed = true ∧
      s.received.map Prod.fst ++ s.todo = calls ∧ s'.received = s.received ∧
        s'.replies.sent = s.replies.sent := by
  obtain ⟨rfl, hclosed, rfl, rfl⟩ := h.ended hs
  refine ⟨rfl, hclosed, ?_, ?_, ?_⟩
  · rw [h.calls_eq, List.map_nil, List.append_nil]
  · rw [Session.pass, asked_ended, List.append_nil]
  · rw [Session.pass, output_ended, Fifo.sent_push, List.append_nil]

theorem InStep.idle (h : InStep layouts calls s pending unread) (hidle : s.calling = none) :
    pending = [] ∧ unread = [] := by
  have hbalance := h.balance
  rw [hidle, Option.isSome_none, cond_false] at hbalance
  exact ⟨List.length_eq_zero_iff.mp (by omega), List.length_eq_zero_iff.mp (by omega)⟩

theorem InStep.current (h : InStep layouts calls s pending unread) (hidle : s.calling = none) :
    s.received.map Prod.fst ++ s.todo = calls ∧ s.returned = s.received.map Prod.snd ∧
      s.requests.queue = [] ∧ s.replies.queue = [] := by
  obtain ⟨rfl, rfl⟩ := h.idle hidle
  have hcalls := h.calls_eq
  have hstatuses := h.statuses
  rw [List.map_nil, List.append_nil] at hcalls hstatuses
  exact ⟨hcalls.symm, hstatuses.symm, h.requests, h.replies⟩

theorem InStep.complete (h : InStep layouts calls s pending unread)
    (hstuck : ∀ m s', Step layouts s m s' → ∃ e, m = .raised e) : s.closed = true ∧
      s.received.map Prod.fst = calls ∧ s.returned = s.received.map Prod.snd := by
  cases pending with
  | cons x rest =>
    obtain ⟨e, he⟩ := hstuck _ _ (h.serve_enabled .OK)
    cases he
  | nil =>
    cases hcalling : s.calling with
    | some made =>
      have hbalance := h.balance
      rw [hcalling, List.length_nil, Nat.zero_add, Option.isSome_some, cond_true] at hbalance
      obtain ⟨x, rfl⟩ := List.length_eq_one_iff.mp hbalance
      obtain ⟨e, he⟩ := hstuck _ _ (h.return_enabled hcalling)
      cases he
    | none =>
      obtain ⟨hcalls, hreturned, -⟩ := h.current hcalling
      cases htodo : s.todo with
      | cons command rest =>
        obtain ⟨e, he⟩ := hstuck _ _ (call_enabled layouts htodo hcalling [])
        cases he
      | nil =>
        rw [htodo, List.append_nil] at hcalls
        cases hclosed : s.closed with
        | true => exact ⟨rfl, hcalls, hreturned⟩
        | false =>
          obtain ⟨e, he⟩ := hstuck _ _ (.close htodo hcalling hclosed)
          cases he

theorem InStep.failed (h : InStep layouts calls s pending unread) {e : Exception} :
    ¬ Step layouts s (.failed e) s' := by
  intro hs
  cases hs with
  | failed hcalling hoffer hrun =>
    obtain ⟨x, rest, -, ho, -⟩ := h.recv_cases hcalling hoffer hrun (fun heq ↦ by cases heq)
    cases ho

theorem InStep.transparent (h : InStep layouts calls s pending unread) :
    Transparent layouts calls s where
  received := h.received_prefix
  returned := ⟨unread.map Prod.fst, h.statuses.symm⟩
  answered := h.sent
  current := h.current
  raised := by
    intro e s' hs
    obtain ⟨he, hclosed, hcalls, hreceived, hreplies⟩ := h.raised hs
    rw [(h.closed hclosed).1, List.append_nil] at hcalls
    exact ⟨he, hclosed, hcalls, hreceived, hreplies⟩
  failed := fun _ _ ↦ h.failed
  complete := h.complete

theorem InStep.count (h : InStep layouts calls s pending unread) {m : Move Id}
    (hs : Step layouts s m s') (hm : ∀ e, m ≠ .raised e) :
    s'.received.length + s'.returned.length + (bif s'.closed then 1 else 0) + s.todo.length =
      s.received.length + s.returned.length + (bif s.closed then 1 else 0) +
        s'.todo.length + 1 := by
  cases hs with
  | call htodo hidle hoffer hrun hbegun =>
    simp only [htodo, List.length_cons, Session.advance]
    omega
  | close htodo hidle hopen =>
    simp only [hopen, cond_true, cond_false]
    omega
  | served hoffer hrun hworks =>
    obtain ⟨x, rest, status, padding, -, rfl, -⟩ := h.served (.served hoffer hrun hworks)
    simp only [Session.pass, serving, asked_served, List.length_append, List.length_singleton]
    omega
  | raised hoffer hrun hworks => exact absurd rfl (hm _)
  | returned hcalling hoffer hrun =>
    simp only [List.length_append, List.length_singleton, Session.advance]
    omega
  | failed hcalling hoffer hrun => exact absurd (.failed hcalling hoffer hrun) h.failed

theorem path_count {moves : List (Move Id)}
    (hp : Path (Step layouts) (start calls) moves s) :
    (∀ e, .raised e ∉ moves) → moves.length + s.todo.length =
      calls.length + (s.received.length + s.returned.length + (bif s.closed then 1 else 0)) := by
  refine hp.invariant (I := fun moves s ↦ (∀ e, .raised e ∉ moves) →
    moves.length + s.todo.length =
      calls.length + (s.received.length + s.returned.length + (bif s.closed then 1 else 0))) ?_ ?_
  · intro _
    simp [start]
  · intro moves s m s' hp hI hs hraised
    obtain ⟨pending, unread, h⟩ := inStep_path hp
    have hold := hI (fun e he ↦ hraised e (List.mem_append_left _ he))
    have hm (e : Exception) : m ≠ .raised e := by
      intro heq
      exact hraised e (by simp [heq])
    have hcount := h.count hs hm
    rw [List.length_append, List.length_singleton]
    omega

/-- Three moves a call: it is made, served and returned. -/
theorem path_length {moves : List (Move Id)} (hp : Path (Step layouts) (start calls) moves s)
    (hraised : ∀ e, .raised e ∉ moves) : moves.length ≤ 3 * calls.length + 1 := by
  obtain ⟨pending, unread, h⟩ := inStep_path hp
  have hcount := path_count hp hraised
  have hreceived := h.transparent.received.length_le
  have hreturned := h.transparent.returned.length_le
  rw [List.length_map] at hreceived hreturned
  have hclosed : (bif s.closed then 1 else 0) ≤ 1 := by
    cases s.closed <;> decide
  omega

structure Orphaned (layouts : Layouts Id) (calls : List (Command Id)) (s : Session Id)
    (pending : List (Command Id × Bytes)) (unread : List (Killer.Status × Bytes))
    (tail : Bytes) : Prop extends Coherent layouts calls s pending unread tail where
  todo : s.todo = []
  idle : s.calling = none
  closed : s.closed = true

theorem orphaned_truncated (layouts : Layouts Id) (records : List (Command Id × Bytes)) (n : ℕ) :
    ∃ tail, Orphaned layouts ((records.map Prod.fst).take (n / layouts.command.size))
      (truncated layouts records n) (records.take (n / layouts.command.size)) [] tail := by
  obtain ⟨tail, htail, hlt⟩ := layouts.command.take_records records n
  exact ⟨tail, {
    calls_eq := by simp [truncated]
    requests := htail
    tail_lt := hlt
    statuses := rfl
    replies := rfl
    sent := ⟨[], rfl, rfl⟩
    todo := rfl
    idle := rfl
    closed := rfl }⟩

theorem Orphaned.alone (h : Orphaned layouts calls s pending unread tail) {m : Move Id}
    (hs : Step layouts s m s') : (∃ tr, m = .served tr) ∨ ∃ e, m = .raised e := by
  have htodo := h.todo
  have hidle := h.idle
  cases hs with
  | served hoffer hrun hworks => exact .inl ⟨_, rfl⟩
  | raised hoffer hrun hworks => exact .inr ⟨_, rfl⟩
  | call htodo' =>
    rw [htodo] at htodo'
    cases htodo'
  | close htodo' hidle hopen =>
    rw [h.closed] at hopen
    cases hopen
  | returned hcalling =>
    rw [hidle] at hcalling
    cases hcalling
  | failed hcalling =>
    rw [hidle] at hcalling
    cases hcalling

theorem Orphaned.step (h : Orphaned layouts calls s pending unread tail) {m : Move Id}
    (hs : Step layouts s m s') :
    ∃ pending' unread' tail', Orphaned layouts calls s' pending' unread' tail' := by
  rcases h.alone hs with ⟨tr, rfl⟩ | ⟨e, rfl⟩
  · obtain ⟨x, rest, status, padding, rfl, rfl, rfl⟩ := h.served hs
    exact ⟨_, _, _, h.toCoherent.serve status padding, h.todo, h.idle, h.closed⟩
  · obtain ⟨rfl, -, -, rfl⟩ := h.ended hs
    exact ⟨_, _, _, h.toCoherent.end, h.todo, h.idle, h.closed⟩

theorem orphaned_path {records : List (Command Id × Bytes)} {n : ℕ} {moves : List (Move Id)}
    (hp : Path (Step layouts) (truncated layouts records n) moves s) :
    ∃ pending unread tail, Orphaned layouts
      ((records.map Prod.fst).take (n / layouts.command.size)) s pending unread tail := by
  refine hp.preserves (I := fun s ↦ ∃ pending unread tail, Orphaned layouts
    ((records.map Prod.fst).take (n / layouts.command.size)) s pending unread tail) ?_
    ⟨_, _, orphaned_truncated layouts records n⟩
  intro _ _ _ hs hI
  obtain ⟨_, _, _, h⟩ := hI
  exact h.step hs

theorem Orphaned.pending_iff (h : Orphaned layouts calls s pending unread tail) :
    pending = [] ↔ s.received.map Prod.fst = calls := by
  have hlen := congrArg List.length h.calls_eq
  rw [h.todo, List.append_nil, List.length_append, List.length_map, List.length_map] at hlen
  constructor
  · rintro rfl
    rw [h.calls_eq, h.todo, List.append_nil, List.map_nil, List.append_nil]
  · intro heq
    rw [← heq, List.length_map] at hlen
    exact List.length_eq_zero_iff.mp (by omega)

theorem Orphaned.truncated (h : Orphaned layouts calls s pending unread tail) :
    Truncated layouts calls s where
  received := h.received_prefix
  answered := h.sent
  serves := by
    intro hne
    cases pending with
    | nil => exact absurd (h.pending_iff.mp rfl) hne
    | cons x rest => exact ⟨_, _, h.serve_enabled .OK⟩
  ends := by
    intro heq
    obtain rfl := h.pending_iff.mpr heq
    refine ⟨⟨_, h.end_enabled h.closed⟩, fun tr s' hs ↦ ?_⟩
    obtain ⟨x, rest, status, padding, hcons, -⟩ := h.served hs
    cases hcons
  raised := by
    intro e s' hs
    obtain ⟨he, -, hcalls, hreceived, hreplies⟩ := h.toCoherent.raised hs
    rw [h.todo, List.append_nil] at hcalls
    exact ⟨he, hcalls, hreceived, hreplies⟩
  alone := fun _ _ ↦ h.alone

/-- The channel is transparent at any point of any session, and where the requests break off,
what is complete of them is served before the end is met. -/
theorem killer_channel_transparent (layouts : Layouts Id) (calls : List (Command Id)) :
    (∀ moves s, Path (Step layouts) (start calls) moves s → Transparent layouts calls s ∧
      ((∀ e, .raised e ∉ moves) → moves.length ≤ 3 * calls.length + 1)) ∧
    ∀ records : List (Command Id × Bytes), records.map Prod.fst = calls → ∀ n moves s,
      Path (Step layouts) (truncated layouts records n) moves s →
        Truncated layouts (calls.take (n / layouts.command.size)) s := by
  constructor
  · intro moves s hp
    obtain ⟨pending, unread, h⟩ := inStep_path hp
    exact ⟨h.transparent, path_length hp⟩
  · rintro records rfl n moves s hp
    obtain ⟨pending, unread, tail, h⟩ := orphaned_path hp
    exact h.truncated

/-- A command as a byte of its type, one of padding and one of its identifier. -/
def shortLayouts : Layouts UInt8 where
  command :=
    { size := 3
      size_pos := by decide
      bytes := fun command padding ↦
        [match command.type with
          | .FREEZE => 0
          | .UNFREEZE => 1
          | .TERMINATE => 2, padding.headD 0, command.id]
      value := fun bytes ↦ match bytes with
        | [0, _, id] => ⟨.FREEZE, id⟩
        | [1, _, id] => ⟨.UNFREEZE, id⟩
        | _ => ⟨.TERMINATE, bytes.getLastD 0⟩
      length_bytes := fun _ _ ↦ rfl
      value_bytes := fun command _ ↦ by
        obtain ⟨type, id⟩ := command
        cases type <;> rfl }
  status :=
    { size := 1
      size_pos := by decide
      bytes := fun status _ ↦ match status with
        | .OK => [0]
        | .PROTECTED => [1]
        | .ERROR => [2]
      value := fun bytes ↦ match bytes with
        | [0] => .OK
        | [1] => .PROTECTED
        | _ => .ERROR
      length_bytes := fun status _ ↦ by cases status <;> rfl
      value_bytes := fun status _ ↦ by cases status <;> rfl }

theorem InStep.round (h : InStep layouts calls s [] []) {command : Command Id}
    {rest : List (Command Id)} (htodo : s.todo = command :: rest) (hidle : s.calling = none)
    (status : Killer.Status) : ∃ tr s', Path (Step layouts) s
      [.call command, .served tr, .returned status] s' ∧ InStep layouts calls s' [] [] ∧
        s'.todo = rest ∧ s'.calling = none := by
  have hmade := h.call htodo hidle []
  have hserved : InStep layouts calls _ [] [(status, [])] := hmade.serve status []
  refine ⟨_, _, .cons (call_enabled layouts htodo hidle []) (.cons (hmade.serve_enabled status)
    (.one (hserved.return_enabled rfl))), hserved.return rfl, rfl, rfl⟩

/-- A process is frozen, one of somebody else's is not terminated, and the first one is thawed. -/
def threeCalls : List (Command UInt8) := [⟨.FREEZE, 7⟩, ⟨.TERMINATE, 9⟩, ⟨.UNFREEZE, 7⟩]

theorem threeCalls_path : ∃ tr₁ tr₂ tr₃ s, Path (Step shortLayouts) (start threeCalls)
    [.call ⟨.FREEZE, 7⟩, .served tr₁, .returned .OK, .call ⟨.TERMINATE, 9⟩, .served tr₂,
      .returned .PROTECTED, .call ⟨.UNFREEZE, 7⟩, .served tr₃, .returned .OK] s ∧
        s.calling = none := by
  have h₀ := inStep_start shortLayouts threeCalls
  obtain ⟨tr₁, s₁, hp₁, h₁, htodo₁, hidle₁⟩ := h₀.round rfl rfl .OK
  obtain ⟨tr₂, s₂, hp₂, h₂, htodo₂, hidle₂⟩ := h₁.round htodo₁ hidle₁ .PROTECTED
  obtain ⟨tr₃, s₃, hp₃, h₃, htodo₃, hidle₃⟩ := h₂.round htodo₂ hidle₂ .OK
  exact ⟨tr₁, tr₂, tr₃, s₃, (hp₁.append hp₂).append hp₃, hidle₃⟩

def freezeSeven : Command UInt8 × Bytes := (⟨.FREEZE, 7⟩, [99])

/-- Of two requests, four bytes are left: the first is served and the second is not. -/
theorem cut_path : ∃ s, s.received = [(⟨.FREEZE, 7⟩, .PROTECTED)] ∧
    Path (Step shortLayouts) (truncated shortLayouts [freezeSeven, (⟨.TERMINATE, 7⟩, [])] 4)
      [.served (serving shortLayouts freezeSeven .PROTECTED []), .raised .endOfFileError] s := by
  obtain ⟨tail, h⟩ := orphaned_truncated shortLayouts [freezeSeven, (⟨.TERMINATE, 7⟩, [])] 4
  have hpending : Coherent shortLayouts [⟨.FREEZE, 7⟩] _ [freezeSeven] [] tail := h.toCoherent
  have hserved := hpending.serve_enabled .PROTECTED
  have hraised := (hpending.serve .PROTECTED []).end_enabled rfl
  exact ⟨_, by simp [Session.pass, serving, truncated, freezeSeven],
    .cons hserved (.one hraised)⟩

theorem killer_channel_transparent_short :
    (∃ moves s, Path (Step shortLayouts) (start threeCalls) moves s ∧ s.calling = none ∧
      Transparent shortLayouts threeCalls s) ∧
    ∃ s, s.received = [(⟨.FREEZE, 7⟩, .PROTECTED)] ∧ Truncated shortLayouts [⟨.FREEZE, 7⟩] s := by
  obtain ⟨_, _, _, s, hp, hidle⟩ := threeCalls_path
  obtain ⟨t, hreceived, hcut⟩ := cut_path
  have hwhole := (killer_channel_transparent shortLayouts threeCalls).1 _ s hp
  have hshort := (killer_channel_transparent shortLayouts [⟨.FREEZE, 7⟩, ⟨.TERMINATE, 7⟩]).2
    [freezeSeven, (⟨.TERMINATE, 7⟩, [])] rfl 4 _ t hcut
  exact ⟨⟨_, s, hp, hidle, hwhole.1⟩, t, hreceived, hshort⟩

end FlowctlGame.KillerStreamInterface
