import FlowctlGame.Judge
import FlowctlGame.Service

namespace FlowctlGame

open Interaction Program Broker BrokerMain
open BrokerInterface (Casts)

namespace Judge

/-- `_begin_3` is the only function that leaves what it has printed in the buffer. -/
def Call.flushes : Call → Bool
  | .begin₃ _ _ _ => false
  | _ => true

def Call.ends : Call → Bool
  | .end' _ _ => true
  | _ => false

theorem ends_request (call : Call) : call.request.ends = call.ends := by
  cases call with
  | end' id discardRemaining => cases discardRemaining <;> rfl
  | _ => rfl

theorem printed_request {casts : Casts} (hcasts : Decimal casts) {call : Call} (h : call.Fits) :
    call.printed = BrokerTextInterface.callLine casts call.request := by
  rw [BrokerTextInterface.callLine, ← command_request hcasts h, printed_eq hcasts call h.id_lt]

end Judge

/-- The judge and the broker with the two pipes between them. Of the judge it is known what it
has called and what it got, what is still in the buffer of its `stdout`, and whether it is in a
`flush` or a `readline`. -/
structure Game (lib : TokenizerLibrary) where
  broker : BrokerImpl lib
  trace : List BrokerMain.Event := []
  outcome : Outcome String ℕ := .pending
  requests : Bytes := []
  replies : Bytes := []
  calls : List Judge.Call := []
  buffer : Bytes := []
  flushing : Bool := false
  waiting : Bool := false
  results : List Judge.Result := []
  failed : Bool := false
  closed : Bool := false

inductive Party where
  | judge
  | broker

namespace Game

variable {lib : TokenizerLibrary}

def start (casts : Casts) (options : BrokerImpl.Options) : Game lib where
  broker := ((BrokerMain.main casts).run (BrokerImpl.new options : BrokerImpl lib) []).state
  outcome := ((BrokerMain.main casts).run (BrokerImpl.new options : BrokerImpl lib) []).outcome

/-- What `readline` returns, and what it leaves. -/
inductive Readline (s : Game lib) : Bytes → Bytes → Prop
  | line {line rest : Bytes} (hreplies : s.replies = line ++ 10 :: rest) (hline : 10 ∉ line) :
      Readline s (line ++ [10]) rest
  | ended (hended : s.outcome ≠ .pending) (hreplies : 10 ∉ s.replies) : Readline s s.replies []

/-- A step of either process. Which function the judge calls next is up to the judge, and an
exception ends it. -/
inductive Step (casts : Casts) (options : BrokerImpl.Options) (capacity : ℕ) :
    Game lib → Party → Game lib → Prop
  | call {s : Game lib} {c : Judge.Call} (hfits : c.Fits) (hopen : s.closed = false)
      (hwaiting : s.waiting = false) (hflushed : s.flushing = true → s.buffer = []) :
      Step casts options capacity s .judge
        { s with
          calls := s.calls ++ [c]
          buffer := s.buffer ++ c.printed
          flushing := c.flushes
          waiting := c.ends }
  | spill {s : Game lib} {n : ℕ} (hn : 0 < n) (hle : n ≤ s.buffer.length)
      (hroom : s.requests.length + n ≤ capacity) :
      Step casts options capacity s .judge
        { s with requests := s.requests ++ s.buffer.take n, buffer := s.buffer.drop n }
  | returned {s : Game lib} {line rest : Bytes} {r : Judge.Result} (hwaiting : s.waiting = true)
      (hfailed : s.failed = false) (hflushed : s.buffer = []) (hline : s.Readline line rest)
      (hresult : Judge.Result.fromLine line = .ok r) :
      Step casts options capacity s .judge
        { s with results := s.results ++ [r], waiting := false, replies := rest }
  | raised {s : Game lib} {line rest : Bytes} {e : String} (hwaiting : s.waiting = true)
      (hfailed : s.failed = false) (hflushed : s.buffer = []) (hline : s.Readline line rest)
      (hresult : Judge.Result.fromLine line = .error e) :
      Step casts options capacity s .judge { s with failed := true, replies := rest }
  | exit {s : Game lib} (hopen : s.closed = false) (hdone : s.waiting = true → s.failed = true) :
      Step casts options capacity s .judge { s with closed := true }
  | broker {s : Game lib} {events : List BrokerMain.Event} {heard rest : Bytes} {n : ℕ}
      {o : Outcome String ℕ} {b : BrokerImpl lib} (hpending : s.outcome = .pending)
      (hrun : (BrokerMain.main casts).Executes (BrokerImpl.new options) (s.trace ++ events) o b)
      (hinput : inputs events = heard.map some ++ List.replicate n none)
      (hrequests : s.requests = heard ++ rest)
      (hend : n ≠ 0 → s.closed = true ∧ s.buffer = [] ∧ rest = []) :
      Step casts options capacity s .broker
        { s with
          broker := b
          trace := s.trace ++ events
          outcome := o
          requests := rest
          replies := s.replies ++ (outputs events).flatten }

def Listens (lib : TokenizerLibrary) (casts : Casts) (options : BrokerImpl.Options)
    (tr : List BrokerMain.Event) : Prop :=
  ∃ o, ∃ b : BrokerImpl lib,
    (BrokerMain.main casts).Executes (BrokerImpl.new options) (tr ++ [.input none]) o b

/-- What the judge gets from `end` is what a client of the broker's gets that makes the same
calls. As long as the broker runs, the judge's functions raise no exception, and it does not
happen that each of the two waits for the other. -/
structure Agrees (casts : Casts) (options : BrokerImpl.Options) (capacity : ℕ) (s : Game lib) :
    Prop where
  client : ∃ results f,
    Client options (s.calls.map Judge.Call.request) (systems s.trace) results f s.broker ∧
      s.outcome = exits f ∧
        s.results.map .ok <+: results.map (fun r ↦ Judge.Result.fromLine (written casts r)) ∧
          results.length ≤ s.calls.countP Judge.Call.ends
  counted : s.results.length + s.waiting.toNat = s.calls.countP Judge.Call.ends
  alive : s.failed = true → s.outcome ≠ .pending
  moves : Listens lib casts options s.trace → s.requests = [] →
    (s.closed = true → s.buffer ≠ []) → ∃ s', Step casts options capacity s .judge s'

section Lines

theorem written_line (casts : Casts) (r : Result) :
    ∃ line, 10 ∉ line ∧ written casts r = line ++ [10] := by
  by_cases hr : r.status.Named
  · refine ⟨BrokerTextInterface.escaping.join [casts.status.print ⟨r.status, hr⟩, r.data],
      BrokerTextInterface.not_mem_join _, ?_⟩
    simp [written, hr, BrokerTextInterface.resultText, BrokerTextInterface.resultLine,
      Text.Escaping.join, Text.Escaping.encodeText, BrokerTextInterface.escaping,
      BrokerTextInterface.escape]
  · exact ⟨[], List.not_mem_nil, by simp [written, hr]⟩

theorem fromLine_written (casts : Casts) {r : Result} (hr : r.status.Named) :
    ∃ r', Judge.Result.fromLine (written casts r) = .ok r' := by
  refine ⟨⟨casts.status.print ⟨r.status, hr⟩, r.data⟩, ?_⟩
  rw [← Judge.fromLine_resultLine casts hr]
  simp [written, hr, BrokerTextInterface.resultText]

theorem first_unique {c : UInt8} {line line' rest rest' : Bytes} (h : c ∉ line) (h' : c ∉ line')
    (heq : line ++ c :: rest = line' ++ c :: rest') : line = line' ∧ rest = rest' := by
  have htake {l r : Bytes} (hl : c ∉ l) : (l ++ c :: r).takeWhile (· ≠ c) = l := by
    have hall : ∀ d ∈ l, decide (d ≠ c) = true := fun d hd ↦ by
      simpa using ne_of_mem_of_not_mem hd hl
    rw [List.takeWhile_append_of_pos hall]
    simp
  obtain rfl : line = line' := by rw [← @htake line rest h, heq, htake h']
  exact ⟨rfl, by simpa using heq⟩

variable {casts : Casts} {s : Game lib} {line rest : Bytes} {results : List Result}

theorem Readline.first (h : s.Readline line rest)
    (hreplies : s.replies = (results.map (written casts)).flatten) :
    (∃ r more, results = r :: more ∧ line = written casts r ∧
      rest = (more.map (written casts)).flatten) ∨ line = [] ∧ s.outcome ≠ .pending := by
  cases results with
  | nil =>
    rw [List.map_nil, List.flatten_nil] at hreplies
    cases h with
    | line heq => simp [hreplies] at heq
    | ended hended => exact .inr ⟨hreplies, hended⟩
  | cons r more =>
    obtain ⟨text, htext, hwritten⟩ := written_line casts r
    rw [List.map_cons, List.flatten_cons, hwritten, List.append_assoc, List.singleton_append]
      at hreplies
    cases h with
    | line heq hline =>
      obtain ⟨rfl, rfl⟩ := first_unique htext hline (hreplies.symm.trans heq)
      exact .inl ⟨r, more, rfl, hwritten.symm, rfl⟩
    | ended _ hnone =>
      rw [hreplies] at hnone
      simp at hnone

end Lines

section Invariant

variable {casts : Casts} {options : BrokerImpl.Options} {capacity : ℕ} {s s' : Game lib}

/-- The bytes of the calls are heard by the broker, in the pipe or in the buffer, and the lines
of the replies are read by the judge or in the pipe. -/
structure Inv (casts : Casts) (options : BrokerImpl.Options) (s : Game lib) : Prop where
  runs : (BrokerMain.main casts).Executes (BrokerImpl.new options) s.trace s.outcome s.broker
  fits : ∀ c ∈ s.calls, c.Fits
  stream : ∃ heard n, inputs s.trace = heard.map some ++ List.replicate n none ∧
    heard ++ s.requests ++ s.buffer = s.calls.flatMap Judge.Call.printed ∧
      (n ≠ 0 → s.closed = true ∧ s.buffer = [] ∧ s.requests = [])
  counted : s.results.length + s.waiting.toNat = s.calls.countP Judge.Call.ends
  returned : s.results.map .ok =
    ((outputs s.trace).take s.results.length).map Judge.Result.fromLine
  replies : s.failed = false → s.replies = ((outputs s.trace).drop s.results.length).flatten
  alive : s.failed = true → s.outcome ≠ .pending

theorem flatMap_printed (hcasts : Judge.Decimal casts) {calls : List Judge.Call}
    (hfits : ∀ c ∈ calls, c.Fits) : calls.flatMap Judge.Call.printed =
      (calls.map Judge.Call.request).flatMap (BrokerTextInterface.callLine casts) := by
  rw [List.flatMap_map]
  exact List.flatMap_congr (fun c hc ↦ Judge.printed_request hcasts (hfits c hc))

theorem countP_request (calls : List Judge.Call) :
    (calls.map Judge.Call.request).countP BrokerInterface.Call.ends =
      calls.countP Judge.Call.ends := by
  rw [List.countP_map]
  exact List.countP_congr (fun c _ ↦ by simp [Judge.ends_request])

theorem asked (hcasts : Judge.Decimal casts) {calls : List Judge.Call}
    (hfits : ∀ c ∈ calls, c.Fits) {heard left : Bytes} {n : ℕ}
    (hcalls : heard ++ left = calls.flatMap Judge.Call.printed) (hend : n ≠ 0 → left = []) :
    Asked casts (calls.map Judge.Call.request) (heard.map some ++ List.replicate n none) := by
  refine ⟨n, ?_⟩
  rw [← flatMap_printed hcasts hfits, ← hcalls]
  cases n with
  | zero =>
    rw [List.map_append, List.append_assoc]
    exact (List.prefix_append_right_inj _).mpr (by simp)
  | succ n =>
    rw [hend (Nat.succ_ne_zero n), List.append_nil]
    exact List.prefix_refl _

theorem Inv.asked (hcasts : Judge.Decimal casts) (h : Inv casts options s) :
    Asked casts (s.calls.map Judge.Call.request) (inputs s.trace) := by
  obtain ⟨heard, n, hinputs, hcalls, hend⟩ := h.stream
  rw [hinputs]
  rw [List.append_assoc] at hcalls
  refine Game.asked hcasts h.fits hcalls (fun hn ↦ ?_)
  obtain ⟨-, hbuffer, hrequests⟩ := hend hn
  rw [hbuffer, hrequests, List.append_nil]

theorem Inv.results (hcasts : Judge.Decimal casts) (h : Inv casts options s) :
    ∃ results f, Client options (s.calls.map Judge.Call.request) (systems s.trace) results f
        s.broker ∧ s.outcome = exits f ∧ outputs s.trace = results.map (written casts) ∧
          results.length ≤ s.calls.countP Judge.Call.ends ∧
            (s.outcome = .pending → ∀ r ∈ results, r.status.Named) := by
  obtain ⟨f, hcourse, ho⟩ := BrokerMain.main_spec (BrokerImpl.new options) _ _ _ h.runs
  obtain ⟨results, f, hclient, hresults, houtcome⟩ :=
    (BrokerMain.transparent hcourse (h.asked hcasts)).client
  refine ⟨results, f, hclient, ho.trans houtcome, hresults, ?_, fun hpending ↦ ?_⟩
  · rw [← countP_request]
    exact hclient.length_le
  · refine hclient.named ?_
    rw [ho, houtcome] at hpending
    exact exits_pending.mp hpending

theorem fromLine_nil (r : Judge.Result) : Judge.Result.fromLine [] ≠ .ok r := by
  intro h
  cases h

theorem Inv.readline (hcasts : Judge.Decimal casts) (h : Inv casts options s)
    (hfailed : s.failed = false) {line rest : Bytes} (hline : s.Readline line rest) :
    ((outputs s.trace)[s.results.length]? = some line ∧
      rest = ((outputs s.trace).drop (s.results.length + 1)).flatten ∧
        (s.outcome = .pending → ∃ r, Judge.Result.fromLine line = .ok r)) ∨
      line = [] ∧ s.outcome ≠ .pending := by
  obtain ⟨results, -, -, -, houtputs, -, hnamed⟩ := h.results hcasts
  have hreplies := h.replies hfailed
  rw [houtputs, ← List.map_drop] at hreplies
  rcases hline.first hreplies with ⟨r, more, hdrop, rfl, rfl⟩ | hended
  · have hmem : r ∈ results := List.mem_of_mem_drop (hdrop ▸ List.mem_cons_self)
    have hget : results[s.results.length]? = some r := by
      rw [← List.head?_drop, hdrop, List.head?_cons]
    have hmore : results.drop (s.results.length + 1) = more := by
      rw [← List.drop_drop, hdrop]
      rfl
    refine .inl ⟨?_, ?_, fun hpending ↦ fromLine_written casts (hnamed hpending r hmem)⟩
    · rw [houtputs, List.getElem?_map, hget, Option.map_some]
    · rw [houtputs, ← List.map_drop, hmore]
  · exact .inr hended

theorem Inv.call (h : Inv casts options s) {c : Judge.Call} (hfits : c.Fits)
    (hopen : s.closed = false) (hwaiting : s.waiting = false) : Inv casts options { s with
      calls := s.calls ++ [c]
      buffer := s.buffer ++ c.printed
      flushing := c.flushes
      waiting := c.ends } where
  runs := h.runs
  fits := List.forall_mem_append.mpr ⟨h.fits, List.forall_mem_singleton.mpr hfits⟩
  stream := by
    obtain ⟨heard, n, hinputs, hcalls, hend⟩ := h.stream
    refine ⟨heard, n, hinputs, ?_, fun hn ↦ ?_⟩
    · rw [List.flatMap_append, ← hcalls, List.flatMap_singleton, ← List.append_assoc]
    · rw [(hend hn).1] at hopen
      cases hopen
  counted := by
    have hcounted := h.counted
    rw [hwaiting] at hcounted
    rw [List.countP_append, ← hcounted, List.countP_singleton]
    cases c.ends <;> rfl
  returned := h.returned
  replies := h.replies
  alive := h.alive

theorem Inv.spill (h : Inv casts options s) {n : ℕ} (hn : 0 < n) (hle : n ≤ s.buffer.length) :
    Inv casts options
      { s with requests := s.requests ++ s.buffer.take n, buffer := s.buffer.drop n } where
  runs := h.runs
  fits := h.fits
  stream := by
    obtain ⟨heard, k, hinputs, hcalls, hend⟩ := h.stream
    refine ⟨heard, k, hinputs, ?_, fun hk ↦ ?_⟩
    · rw [← hcalls, List.append_assoc, List.append_assoc, List.append_assoc,
        List.take_append_drop]
    · rw [(hend hk).2.1, List.length_nil] at hle
      omega
  counted := h.counted
  returned := h.returned
  replies := h.replies
  alive := h.alive

theorem Inv.return (hcasts : Judge.Decimal casts) (h : Inv casts options s) {line rest : Bytes}
    {r : Judge.Result} (hwaiting : s.waiting = true) (hfailed : s.failed = false)
    (hline : s.Readline line rest) (hresult : Judge.Result.fromLine line = .ok r) :
    Inv casts options
      { s with results := s.results ++ [r], waiting := false, replies := rest } where
  runs := h.runs
  fits := h.fits
  stream := h.stream
  counted := by
    have hcounted := h.counted
    rw [hwaiting] at hcounted
    rw [List.length_append, List.length_singleton]
    exact hcounted
  returned := by
    rcases h.readline hcasts hfailed hline with ⟨hget, -⟩ | ⟨rfl, -⟩
    · rw [List.map_append, List.length_append, List.length_singleton, List.take_add_one, hget,
        List.map_append, ← h.returned]
      simp [hresult]
    · exact absurd hresult (fromLine_nil r)
  replies := by
    rcases h.readline hcasts hfailed hline with ⟨-, hrest, -⟩ | ⟨rfl, -⟩
    · intro _
      rw [hrest, List.length_append, List.length_singleton]
    · exact absurd hresult (fromLine_nil r)
  alive := h.alive

theorem Inv.raise (hcasts : Judge.Decimal casts) (h : Inv casts options s) {line rest : Bytes}
    {e : String} (hfailed : s.failed = false) (hline : s.Readline line rest)
    (hresult : Judge.Result.fromLine line = .error e) :
    Inv casts options { s with failed := true, replies := rest } where
  runs := h.runs
  fits := h.fits
  stream := h.stream
  counted := h.counted
  returned := h.returned
  replies := nofun
  alive := by
    intro _ hpending
    rcases h.readline hcasts hfailed hline with ⟨-, -, hok⟩ | ⟨-, hended⟩
    · obtain ⟨r, hr⟩ := hok hpending
      rw [hr] at hresult
      cases hresult
    · exact hended hpending

theorem Inv.exit (h : Inv casts options s) : Inv casts options { s with closed := true } where
  runs := h.runs
  fits := h.fits
  stream := by
    obtain ⟨heard, n, hinputs, hcalls, hend⟩ := h.stream
    exact ⟨heard, n, hinputs, hcalls, fun hn ↦ ⟨rfl, (hend hn).2⟩⟩
  counted := h.counted
  returned := h.returned
  replies := h.replies
  alive := h.alive

theorem Inv.results_le (h : Inv casts options s) :
    s.results.length ≤ (outputs s.trace).length := by
  have hlen := congrArg List.length h.returned
  rw [List.length_map, List.length_map, List.length_take] at hlen
  omega

theorem Inv.hear (h : Inv casts options s) {events : List BrokerMain.Event} {heard rest : Bytes}
    {n : ℕ} {o : Outcome String ℕ} {b : BrokerImpl lib} (hpending : s.outcome = .pending)
    (hrun : (BrokerMain.main casts).Executes (BrokerImpl.new options) (s.trace ++ events) o b)
    (hinput : inputs events = heard.map some ++ List.replicate n none)
    (hrequests : s.requests = heard ++ rest)
    (hend : n ≠ 0 → s.closed = true ∧ s.buffer = [] ∧ rest = []) :
    Inv casts options { s with
      broker := b
      trace := s.trace ++ events
      outcome := o
      requests := rest
      replies := s.replies ++ (outputs events).flatten } where
  runs := hrun
  fits := h.fits
  stream := by
    obtain ⟨before, k, hinputs, hcalls, hended⟩ := h.stream
    rw [inputs_append, hinputs, hinput]
    cases k with
    | zero =>
      refine ⟨before ++ heard, n, ?_, ?_, hend⟩
      · simp
      · rw [← hcalls, hrequests, List.append_assoc before]
    | succ k =>
      -- the stream has ended, and nothing can have been heard after that
      obtain ⟨hclosed, hbuffer, hnone⟩ := hended (Nat.succ_ne_zero k)
      rw [hnone] at hrequests
      obtain ⟨rfl, rfl⟩ := List.append_eq_nil_iff.mp hrequests.symm
      refine ⟨before, k + 1 + n, ?_, ?_, fun _ ↦ ⟨hclosed, hbuffer, rfl⟩⟩
      · rw [List.map_nil, List.nil_append, List.append_assoc, List.replicate_append_replicate]
      · rw [← hcalls, hnone]
  counted := h.counted
  returned := by
    rw [outputs_append, List.take_append_of_le_length h.results_le]
    exact h.returned
  replies := by
    intro hfailed
    rw [outputs_append, List.drop_append_of_le_length h.results_le, List.flatten_append]
    exact congrArg (· ++ _) (h.replies hfailed)
  alive := fun hfailed ↦ absurd hpending (h.alive hfailed)

theorem Inv.step (hcasts : Judge.Decimal casts) {party : Party}
    (hs : Step casts options capacity s party s') (h : Inv casts options s) :
    Inv casts options s' := by
  cases hs with
  | call hfits hopen hwaiting => exact h.call hfits hopen hwaiting
  | spill hn hle => exact h.spill hn hle
  | returned hwaiting hfailed _ hline hresult =>
    exact h.return hcasts hwaiting hfailed hline hresult
  | raised _ hfailed _ hline hresult => exact h.raise hcasts hfailed hline hresult
  | exit => exact h.exit
  | broker hpending hrun hinput hrequests hend => exact h.hear hpending hrun hinput hrequests hend

theorem inv_start (casts : Casts) (options : BrokerImpl.Options) :
    Inv casts options (start casts options : Game lib) where
  runs := by
    have hrun := executes_run (BrokerMain.main casts) (BrokerImpl.new options : BrokerImpl lib) []
    have hlen := (BrokerMain.main casts).within (BrokerImpl.new options : BrokerImpl lib) []
    rw [List.eq_nil_of_length_eq_zero (Nat.le_zero.mp hlen)] at hrun
    exact hrun
  fits := List.forall_mem_nil _
  stream := ⟨[], 0, rfl, rfl, fun h ↦ absurd rfl h⟩
  counted := rfl
  returned := rfl
  replies _ := rfl
  alive := nofun

/-- A broker that listens for more has replied to every call of `end` that it was sent. -/
theorem Inv.answered (hcasts : Judge.Decimal casts) (h : Inv casts options s)
    (hlistens : Listens lib casts options s.trace) (hrequests : s.requests = [])
    (hbuffer : s.buffer = []) :
    (outputs s.trace).length = s.calls.countP Judge.Call.ends := by
  obtain ⟨o, b, hrun⟩ := hlistens
  obtain ⟨heard, n, hinputs, hcalls, -⟩ := h.stream
  rw [hrequests, hbuffer, List.append_nil] at hcalls
  have hasked : Asked casts (s.calls.map Judge.Call.request)
      (inputs (s.trace ++ [.input none])) := by
    have hinputs' : inputs (s.trace ++ [.input none]) =
        heard.map some ++ List.replicate (n + 1) none := by
      rw [inputs_append, hinputs, List.append_assoc, List.replicate_succ']
      rfl
    rw [hinputs']
    exact Game.asked hcasts h.fits hcalls (fun _ ↦ rfl)
  have hmem : none ∈ inputs (s.trace ++ [.input none]) := by
    rw [inputs_append]
    exact List.mem_append_right _ List.mem_cons_self
  obtain ⟨f, hcourse, -⟩ := BrokerMain.main_spec (BrokerImpl.new options) _ _ _ hrun
  obtain ⟨-, hlength, -⟩ := (BrokerMain.transparent hcourse hasked).finished hmem
  rw [outputs_append, countP_request] at hlength
  simpa [outputs] using hlength

theorem Inv.moves (hcasts : Judge.Decimal casts) (hcapacity : 0 < capacity)
    (h : Inv casts options s) (hlistens : Listens lib casts options s.trace)
    (hrequests : s.requests = []) (hopen : s.closed = true → s.buffer ≠ []) :
    ∃ s', Step casts options capacity s .judge s' := by
  by_cases hbuffer : s.buffer = []
  · have hclosed : s.closed = false := by
      simpa [hbuffer] using hopen
    by_cases hdone : s.waiting = true → s.failed = true
    · exact ⟨_, .exit hclosed hdone⟩
    · -- the judge waits for a reply, which has been written
      rw [Classical.not_imp, Bool.not_eq_true] at hdone
      obtain ⟨hwaiting, hfailed⟩ := hdone
      obtain ⟨results, -, -, -, houtputs, -⟩ := h.results hcasts
      have hlength := h.answered hcasts hlistens hrequests hbuffer
      have hcounted := h.counted
      have hreplies := h.replies hfailed
      rw [hwaiting] at hcounted
      rw [houtputs, List.length_map] at hlength
      rw [houtputs, ← List.map_drop] at hreplies
      obtain ⟨r, more, hdrop⟩ : ∃ r more, results.drop s.results.length = r :: more := by
        refine List.exists_cons_of_length_pos ?_
        rw [List.length_drop, hlength, ← hcounted, Nat.add_sub_cancel_left]
        exact Nat.one_pos
      obtain ⟨line, hline, hwritten⟩ := written_line casts r
      have hread : s.Readline (line ++ [10]) (more.map (written casts)).flatten := by
        refine .line ?_ hline
        rw [hreplies, hdrop, List.map_cons, List.flatten_cons, hwritten, List.append_assoc]
        rfl
      cases hresult : Judge.Result.fromLine (line ++ [10]) with
      | ok r' => exact ⟨_, .returned hwaiting hfailed hbuffer hread hresult⟩
      | error e => exact ⟨_, .raised hwaiting hfailed hbuffer hread hresult⟩
  · refine ⟨_, .spill Nat.one_pos (List.length_pos_of_ne_nil hbuffer) ?_⟩
    rw [hrequests]
    exact hcapacity

/-- In any order of the steps of the two processes, whatever the judge calls and the
solutions do. -/
theorem game_agrees (hcasts : Judge.Decimal casts) (hcapacity : 0 < capacity)
    {parties : List Party}
    (hp : Path (Step casts options capacity) (start casts options) parties s) :
    Agrees casts options capacity s := by
  have h : Inv casts options s :=
    hp.preserves (fun _ _ _ hs h ↦ h.step hcasts hs) (inv_start casts options)
  refine ⟨?_, h.counted, h.alive, h.moves hcasts hcapacity⟩
  obtain ⟨results, f, hclient, houtcome, houtputs, hlength, -⟩ := h.results hcasts
  refine ⟨results, f, hclient, houtcome, ?_, hlength⟩
  rw [h.returned, houtputs, List.map_take, List.map_map]
  exact List.take_prefix _ _

end Invariant

theorem path_call {casts : Casts} {options : BrokerImpl.Options} {capacity : ℕ} {s : Game lib}
    {c : Judge.Call} (hfits : c.Fits) (hopen : s.closed = false) (hwaiting : s.waiting = false)
    (hbuffer : s.buffer = []) (hroom : s.requests.length + c.printed.length ≤ capacity)
    (hpos : 0 < c.printed.length) :
    Path (Step casts options capacity) s [.judge, .judge] { s with
      calls := s.calls ++ [c]
      requests := s.requests ++ c.printed
      flushing := c.flushes
      waiting := c.ends } := by
  have hspill : Step casts options capacity { s with
      calls := s.calls ++ [c]
      buffer := s.buffer ++ c.printed
      flushing := c.flushes
      waiting := c.ends } .judge _ := .spill hpos (by simp) hroom
  simp only [hbuffer, List.nil_append, List.take_length, List.drop_length] at hspill
  refine .cons (.call hfits hopen hwaiting (fun _ ↦ hbuffer)) (.one ?_)
  simpa [hbuffer] using hspill

theorem path_reply {casts : Casts} {options : BrokerImpl.Options} {capacity : ℕ} {s : Game lib}
    {line : Bytes} {r : Judge.Result} {x : Execution BrokerMain.Event (BrokerImpl lib) String ℕ}
    (hrun : (BrokerMain.main casts).Executes (BrokerImpl.new options) x.trace x.outcome x.state)
    (hpending : s.outcome = .pending) (htrace : s.trace = []) (hreplies : s.replies = [])
    (hwaiting : s.waiting = true) (hfailed : s.failed = false) (hbuffer : s.buffer = [])
    (hinputs : inputs x.trace = s.requests.map some)
    (houtputs : (outputs x.trace).flatten = line ++ [10]) (hline : 10 ∉ line)
    (hresult : Judge.Result.fromLine (line ++ [10]) = .ok r) :
    Path (Step casts options capacity) s [.broker, .judge] { s with
      broker := x.state
      trace := x.trace
      outcome := x.outcome
      requests := []
      waiting := false
      results := s.results ++ [r]
      replies := [] } := by
  have hreply : Step casts options capacity s .broker { s with
      broker := x.state
      trace := s.trace ++ x.trace
      outcome := x.outcome
      requests := []
      replies := s.replies ++ (outputs x.trace).flatten } := by
    refine .broker (n := 0) hpending ?_ ?_ (List.append_nil _).symm (fun hn ↦ absurd rfl hn)
    · rwa [htrace, List.nil_append]
    · rw [hinputs]
      exact (List.append_nil _).symm
  rw [htrace, hreplies, List.nil_append, List.nil_append, houtputs] at hreply
  exact .cons hreply (.one (.returned hwaiting hfailed hbuffer (.line rfl hline) hresult))

def asking : Game SplitChar.library :=
  { start BrokerInterface.decimalCasts BrokerImpl.Options.single with
    calls := [.begin₁ 0, .end' 0 none]
    requests := Judge.Call.printed (.begin₁ 0) ++ Judge.Call.printed (.end' 0 none)
    flushing := true
    waiting := true }

theorem path_asking : Path (Step BrokerInterface.decimalCasts BrokerImpl.Options.single 64)
    (start BrokerInterface.decimalCasts BrokerImpl.Options.single)
    ([.judge, .judge] ++ [.judge, .judge]) asking := by
  have hid : 0 < 2 ^ 64 := Nat.two_pow_pos 64
  refine (path_call (c := .begin₁ 0) hid rfl rfl rfl ?_ ?_).append
    (path_call (c := .end' 0 none) hid rfl rfl rfl ?_ ?_)
  all_goals decide +kernel

def answers : List BrokerMain.Answer :=
  lineSession.quiet 5 ++ lineSession.typed (.begin₁ 0) ++ lineSession.quiet 1 ++
    lineSession.typed (.end₁ 0) ++ List.replicate 11 lineSession.line ++ lineSession.quiet 1

def playing : Execution BrokerMain.Event (BrokerImpl SplitChar.library) String ℕ :=
  (BrokerMain.main BrokerInterface.decimalCasts).run (BrokerImpl.new BrokerImpl.Options.single)
    answers

theorem playing_trace : inputs playing.trace = asking.requests.map some ∧
    (outputs playing.trace).flatten = [79, 75, 32, 97, 92, 110] ++ [10] := by
  decide +kernel

theorem game_agrees_playing : ∃ s : Game SplitChar.library,
    s.results = [⟨[79, 75], [97, 10]⟩] ∧
      Agrees BrokerInterface.decimalCasts BrokerImpl.Options.single 64 s := by
  have hplayed : Path (Step BrokerInterface.decimalCasts BrokerImpl.Options.single 64) asking
      [.broker, .judge] _ := path_reply (x := playing) (r := ⟨[79, 75], [97, 10]⟩)
    (executes_run _ _ answers) rfl rfl rfl rfl rfl rfl playing_trace.1 playing_trace.2 (by decide)
    (by decide)
  exact ⟨_, rfl, game_agrees Judge.decimal_decimalCasts (by decide) (path_asking.append hplayed)⟩

end Game

end FlowctlGame
