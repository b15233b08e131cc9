import FlowctlGame.Independence
import FlowctlGame.Protection
import Mathlib.Computability.DFA
import Mathlib.Computability.RegularExpressions

namespace FlowctlGame

open Interaction Program Unistd Broker

variable {lib : TokenizerLibrary} {α β : Type}

namespace BrokerImpl

inductive Command.Kind where
  | begin
  | send
  | end'
  | terminate
deriving DecidableEq, Repr

def Command.kind : Command → Command.Kind
  | .begin₁ _ | .begin₂ _ _ | .begin₃ _ _ _ => .begin
  | .send _ _ => .send
  | .end' _ _ => .end'
  | .terminate _ => .terminate

section Grammar

open RegularExpression Command

variable {w u : List Kind} {n : ℕ}

/-- One iteration, or a termination between two of them. -/
def turn : RegularExpression Kind :=
  char .begin * star (char .send) * (char .end' + char .terminate) + char .terminate

/-- The words of commands that a solution may be given. -/
def lifecycle : RegularExpression Kind := star turn

def opening (n : ℕ) : List Kind := .begin :: List.replicate n .send

theorem mem_star_char {a : Kind} : w ∈ (star (char a)).matches' ↔ ∃ n, w = List.replicate n a := by
  rw [matches'_star, matches'_char, Language.mem_kstar]
  constructor
  · intro h
    obtain ⟨L, rfl, hL⟩ := h
    refine ⟨L.length, ?_⟩
    rw [List.eq_replicate_of_mem hL]
    simp
  · intro h
    obtain ⟨n, rfl⟩ := h
    exact ⟨List.replicate n [a], by simp, fun y hy ↦ List.eq_of_mem_replicate hy⟩

theorem mem_turn : w ∈ turn.matches' ↔
    (∃ n, w = opening n ++ [.end'] ∨ w = opening n ++ [.terminate]) ∨ w = [.terminate] := by
  simp only [turn, matches'_add, matches'_mul, Language.mem_add, Language.mem_mul, mem_star_char,
    matches'_char]
  constructor
  · rintro (⟨_, ⟨_, rfl, _, ⟨n, rfl⟩, rfl⟩, _, rfl | rfl, rfl⟩ | h)
    · exact .inl ⟨n, .inl rfl⟩
    · exact .inl ⟨n, .inr rfl⟩
    · exact .inr h
  · rintro (⟨n, rfl | rfl⟩ | h)
    · exact .inl ⟨_, ⟨_, rfl, _, ⟨n, rfl⟩, rfl⟩, _, .inl rfl, rfl⟩
    · exact .inl ⟨_, ⟨_, rfl, _, ⟨n, rfl⟩, rfl⟩, _, .inr rfl, rfl⟩
    · exact .inr h

theorem lifecycle_append (hu : u ∈ lifecycle.matches') (hw : w ∈ turn.matches') :
    u ++ w ∈ lifecycle.matches' := by
  obtain ⟨L, rfl, hL⟩ := Language.mem_kstar.mp hu
  refine Language.mem_kstar.mpr ⟨L ++ [w], by simp, fun y hy ↦ ?_⟩
  rcases List.mem_append.mp hy with hy | hy
  · exact hL y hy
  · rwa [List.mem_singleton.mp hy]

inductive Phase where
  | closed
  | opened
  | broken
deriving DecidableEq, Repr

def Phase.next : Phase → Kind → Phase
  | .closed, .begin => .opened
  | .closed, .terminate => .closed
  | .closed, _ => .broken
  | .opened, .begin => .broken
  | .opened, .send => .opened
  | .opened, _ => .closed
  | .broken, _ => .broken

def tracker : DFA Kind Phase where
  step := Phase.next
  start := .closed
  accept := {.closed}

theorem tracker_sends (n : ℕ) : tracker.evalFrom .opened (List.replicate n .send) = .opened := by
  induction n with
  | zero => rfl
  | succ n ih => exact ih

theorem tracker_opening (n : ℕ) : tracker.evalFrom .closed (opening n) = .opened :=
  tracker_sends n

theorem tracker_turn (h : w ∈ turn.matches') : tracker.evalFrom .closed w = .closed := by
  rcases mem_turn.mp h with ⟨n, rfl | rfl⟩ | rfl
  · rw [DFA.evalFrom_of_append, tracker_opening]
    rfl
  · rw [DFA.evalFrom_of_append, tracker_opening]
    rfl
  · rfl

theorem tracker_broken (w : List Kind) : tracker.evalFrom .broken w = .broken := by
  induction w with
  | nil => rfl
  | cons a w ih => exact ih

theorem tracker_lifecycle (h : w ∈ lifecycle.matches') : tracker.eval w = .closed := by
  obtain ⟨L, rfl, hL⟩ := Language.mem_kstar.mp h
  clear h
  induction L with
  | nil => rfl
  | cons y L ih =>
    obtain ⟨hy, hL⟩ := List.forall_mem_cons.mp hL
    rw [List.flatten_cons, DFA.eval, DFA.evalFrom_of_append, show tracker.start = .closed from rfl,
      tracker_turn hy]
    exact ih hL

def Phase.Reads : Phase → List Kind → Prop
  | .closed, w => w ∈ lifecycle.matches'
  | .opened, w => ∃ u ∈ lifecycle.matches', ∃ n, w = u ++ opening n
  | .broken, _ => True

theorem tracker_reads (w : List Kind) : (tracker.eval w).Reads w := by
  induction w using List.reverseRecOn with
  | nil => exact Language.nil_mem_kstar _
  | append_singleton w a ih =>
    rw [DFA.eval_append_singleton]
    show Phase.Reads (Phase.next (tracker.eval w) a) (w ++ [a])
    cases hw : tracker.eval w with
    | closed =>
      rw [hw] at ih
      cases a with
      | begin => exact ⟨w, ih, 0, rfl⟩
      | terminate => exact lifecycle_append ih (mem_turn.mpr (.inr rfl))
      | _ => trivial
    | opened =>
      rw [hw] at ih
      obtain ⟨u, hu, n, rfl⟩ := ih
      rw [List.append_assoc]
      cases a with
      | begin => trivial
      | send =>
        refine ⟨u, hu, n + 1, ?_⟩
        rw [opening, opening, List.replicate_succ']
        rfl
      | end' => exact lifecycle_append hu (mem_turn.mpr (.inl ⟨n, .inl rfl⟩))
      | terminate => exact lifecycle_append hu (mem_turn.mpr (.inl ⟨n, .inr rfl⟩))
    | broken => trivial

theorem beginning_iff : (∃ v ∈ lifecycle.matches', w <+: v) ↔ tracker.eval w ≠ .broken := by
  constructor
  · intro h hw
    obtain ⟨v, hv, rest, rfl⟩ := h
    have hclosed := tracker_lifecycle hv
    rw [DFA.eval, DFA.evalFrom_of_append, ← DFA.eval, hw, tracker_broken] at hclosed
    cases hclosed
  · intro h
    have hreads := tracker_reads w
    cases hw : tracker.eval w with
    | closed =>
      rw [hw] at hreads
      exact ⟨w, hreads, List.prefix_rfl⟩
    | opened =>
      rw [hw] at hreads
      obtain ⟨u, hu, n, rfl⟩ := hreads
      refine ⟨u ++ (opening n ++ [.end']), ?_, ?_⟩
      · exact lifecycle_append hu (mem_turn.mpr (.inl ⟨n, .inl rfl⟩))
      · rw [← List.append_assoc]
        exact List.prefix_append _ _
    | broken => exact absurd hw h

theorem opened_iff : tracker.eval w = .opened ↔
    ∃ u ∈ lifecycle.matches', ∃ n, w = u ++ opening n := by
  constructor
  · intro h
    have hreads := tracker_reads w
    rwa [h] at hreads
  · intro h
    obtain ⟨u, hu, n, rfl⟩ := h
    rw [DFA.eval, DFA.evalFrom_of_append, ← DFA.eval, tracker_lifecycle hu, tracker_opening]

end Grammar

end BrokerImpl

/-- The command was left by `return` or by an exception, so the broker goes on. -/
def Exits : Outcome Failure α → Prop
  | .returned _ | .raised (.exception _) => True
  | _ => False

/-- One of the two assertions about the order of commands failed. -/
def Misused (o : Outcome Failure α) : Prop :=
  o = .raised (.abort "Begin was already called!") ∨
    o = .raised (.abort "Begin was not called!")

/-- Neither the killer channel nor the construction of a tokenizer fails in this call. -/
def Unistd.Event.Sound (lib : TokenizerLibrary) : Event → Prop
  | .killer _ _ (.error _) => False
  | .newTokenizer argument allocated =>
    allocated = true ∧ ∃ tokenizer, lib.newTokenizer argument = .ok tokenizer
  | _ => True

/-- The library has no assertions with the texts of those about the order of commands. -/
def TokenizerLibrary.Discreet (lib : TokenizerLibrary) : Prop :=
  ¬ lib.Asserts "Begin was already called!" ∧ ¬ lib.Asserts "Begin was not called!"

theorem TokenizerLibrary.Discreet.not_misused (h : lib.Discreet) {msg : String}
    (hmsg : lib.Asserts msg) : ¬ Misused (.raised (.abort msg) : Outcome Failure α) := by
  intro hmisused
  rcases hmisused with heq | heq
  · cases heq
    exact h.1 hmsg
  · cases heq
    exact h.2 hmsg

theorem not_misused_exception (e : Exception) :
    ¬ Misused (.raised (.exception e) : Outcome Failure α) := by
  simp [Misused]

namespace Solution

open BrokerImpl (Phase)
open BrokerImpl.Command (Kind)

def phase (sol : Solution lib) : Phase := if sol.tokenizer.isSome then .opened else .closed

theorem phase_opened {sol : Solution lib} (h : sol.tokenizer.isSome = true) :
    sol.phase = .opened := if_pos h

theorem phase_closed {sol : Solution lib} (h : sol.tokenizer.isSome ≠ true) :
    sol.phase = .closed := if_neg h

theorem phase_eq_opened {sol : Solution lib} : sol.phase = .opened ↔ sol.tokenizer ≠ none := by
  rw [phase, ← Option.isSome_iff_ne_none]
  split <;> simp_all

theorem phase_ne_broken (sol : Solution lib) : sol.phase ≠ .broken := by
  unfold phase
  split <;> simp

/-- What a command of this kind, executed with the calls `tr`, means for the iteration. -/
structure Advances (sol : Solution lib) (kind : Kind) (tr : List Event) (o : Outcome Failure α)
    (sol' : Solution lib) : Prop where
  misused : Misused o ↔ sol.phase.next kind = .broken
  exits : (∀ e ∈ tr, e.Sound lib) → Exits o → sol'.phase = sol.phase.next kind

theorem advances_of_broken {sol : Solution lib} {kind : Kind} {tr : List Event} {msg : String}
    {sol' : Solution lib} (hmsg : Misused (.raised (.abort msg) : Outcome Failure α))
    (h : sol.phase.next kind = .broken) :
    sol.Advances kind tr (.raised (.abort msg) : Outcome Failure α) sol' :=
  ⟨iff_of_true hmsg h, fun _ h ↦ h.elim⟩

theorem advances_of_abort {sol : Solution lib} {kind : Kind} {tr : List Event} {msg : String}
    {sol' : Solution lib} (hmsg : ¬ Misused (.raised (.abort msg) : Outcome Failure α))
    (h : sol.phase.next kind ≠ .broken) :
    sol.Advances kind tr (.raised (.abort msg) : Outcome Failure α) sol' :=
  ⟨iff_of_false hmsg h, fun _ h ↦ h.elim⟩

theorem advances_of_pending {sol : Solution lib} {kind : Kind} {tr : List Event}
    {sol' : Solution lib} (h : sol.phase.next kind ≠ .broken) :
    sol.Advances kind tr (.pending : Outcome Failure α) sol' :=
  ⟨iff_of_false (by simp [Misused]) h, fun _ h ↦ h.elim⟩

theorem advances_of_returned {sol : Solution lib} {kind : Kind} {tr : List Event} {a : α}
    {sol' : Solution lib} (hphase : sol'.phase = sol.phase.next kind)
    (h : sol.phase.next kind ≠ .broken) :
    sol.Advances kind tr (.returned a : Outcome Failure α) sol' :=
  ⟨iff_of_false (by simp [Misused]) h, fun _ _ ↦ hphase⟩

theorem begin_advances (hlib : lib.Discreet) (sol : Solution lib) (argument : TokenizerArgument)
    (limits : ResourceLimits) :
    (begin argument limits).Ensures sol (fun tr o sol' ↦ sol.Advances .begin tr o sol') := by
  simp only [begin, newTokenizer, ensures_get_bind, ensures_assert_bind, bind_assoc,
    ensures_ask_bind]
  refine ⟨fun hnone ↦ ?_, fun hsome ↦ ?_⟩
  · have hnext : sol.phase.next .begin = .opened := by
      rw [phase_closed (by simpa using hnone)]
      rfl
    have hbroken : sol.phase.next .begin ≠ .broken := by simp [hnext]
    refine ⟨advances_of_pending hbroken, fun m ↦ ?_⟩
    cases hnew : lib.newTokenizer argument with
    | error msg =>
      simp only [ensures_raise_bind]
      exact advances_of_abort (hlib.not_misused (.inl ⟨argument, hnew⟩)) hbroken
    | ok tokenizer =>
      cases ha : m.allocated with
      | false =>
        simp only [Bool.false_eq_true, if_false, Unistd.throw, ensures_raise_bind]
        refine ⟨iff_of_false (not_misused_exception _) hbroken, fun hsound ↦ ?_⟩
        simp [Event.Sound] at hsound
      | true =>
        simp only [if_true, pure_bind, ensures_modify_bind]
        have hopened {a : Unit} {tr : List Event} {sol' : Solution lib}
            (h : sol'.tokenizer.isSome) :
            sol.Advances .begin tr (.returned a : Outcome Failure Unit) sol' :=
          advances_of_returned (by rw [hnext, phase, if_pos h]) hbroken
        split
        · simp only [callTokenizer, bind_assoc, ensures_get_bind]
          cases hc : lib.call tokenizer sol.outbuf with
          | error msg =>
            simp only [ensures_raise_bind]
            exact advances_of_abort (hlib.not_misused (TokenizerLibrary.asserts_of_call hc)) hbroken
          | ok r =>
            simp only [bind_assoc, ensures_modify_bind, pure_bind]
            cases r.1.status with
            | FAIL => simpa using hopened rfl
            | CONTINUE => simpa using hopened rfl
            | ACCEPTED => simpa using hopened rfl
        · simpa using hopened rfl
  · refine advances_of_broken (.inl rfl) ?_
    rw [phase_opened (by simpa [Option.isSome_iff_ne_none] using hsome)]
    rfl

theorem send_advances (sol : Solution lib) (msg : Bytes) :
    (send msg).Ensures sol (fun tr o sol' ↦ sol.Advances .send tr o sol') := by
  simp only [send, ensures_get_bind, ensures_assert_bind, ensures_modify]
  refine ⟨fun hsome ↦ ?_, fun hnone ↦ advances_of_broken (.inr rfl) ?_⟩
  · have hnext : sol.phase.next .send = .opened := by
      rw [phase_opened hsome]
      rfl
    refine advances_of_returned ?_ (by simp [hnext])
    rw [hnext]
    exact phase_opened hsome
  · rw [phase_closed hnone]
    rfl

theorem terminate_advances (sol : Solution lib) :
    terminate.Ensures sol (fun tr o sol' ↦ sol.Advances .terminate tr o sol') := by
  have hnext : sol.phase.next .terminate = .closed := by
    unfold phase
    split <;> rfl
  have hbroken : sol.phase.next .terminate ≠ .broken := by simp [hnext]
  simp only [terminate, ensures_get_bind, ensures_killerRequest_bind, ensures_modify]
  refine ⟨advances_of_pending hbroken, fun status ↦ advances_of_returned hnext.symm hbroken,
    fun e ↦ ⟨iff_of_false (not_misused_exception _) hbroken, fun hsound ↦ ?_⟩⟩
  simp [Event.Sound] at hsound

/-- The part of `end` behind its assertion has a tokenizer and may call everything. -/
def inside (lib : TokenizerLibrary) : Contract Event (Solution lib) Failure where
  invariant sol := sol.tokenizer.isSome
  allowed _ := True
  fatal _ := False
  error failure := ¬ Misused (.raised failure : Outcome Failure Unit)

theorem inside_communicating (hlib : lib.Discreet) : Communicating (inside lib) where
  deregisters _ _ := trivial
  writes _ _ _ _ := trivial
  reads _ _ _ := trivial
  drained _ hs _ := hs
  absorbed sol hs _ buf _ := by
    obtain ⟨tokenizer, htok⟩ := Option.isSome_iff_exists.mp hs
    simp only [inside, absorb, htok]
    split
    · exact hs
    · split <;> rfl
  chokes sol hs _ buf _ msg h := by
    cases h with
    | absent hnone => simp [inside, hnone] at hs
    | failed _ hcall => exact hlib.not_misused (TokenizerLibrary.asserts_of_call hcall)
  unexpected := by simp [inside, Misused]
  throws e := not_misused_exception e
  quiet _ _ := trivial
  uncalled sol hs hnone := by simp [inside, hnone] at hs

theorem conclude_throws (sol : Solution lib) (discardRemaining : Bool) (status : Result.Status) :
    (conclude discardRemaining status).Ensures sol
      (fun _ o _ ↦ ∀ msg, o ≠ .raised (.abort msg)) := by
  have hterminate (t : Solution lib) : (terminate >>= fun _ ↦
      (pure ⟨status, []⟩ : Calls (Solution lib) Result)).Ensures t
        (fun _ o _ ↦ ∀ msg, o ≠ .raised (.abort msg)) := by
    simp [terminate, -bind_pure_comp]
  have hverdict (t : Solution lib) :
      verdict.Ensures t (fun _ o _ ↦ ∀ msg, o ≠ .raised (.abort msg)) := by
    simp only [verdict, ensures_get_bind]
    cases t.tokenizerStatus <;> simp
  by_cases hs : status = .OK <;> cases discardRemaining <;>
    simp only [conclude, hs, ne_eq, not_true_eq_false, not_false_eq_true, if_true, if_false,
      Bool.false_eq_true, ensures_modify_bind, hterminate, hverdict]

theorem end_advances (hlib : lib.Discreet) (sol : Solution lib) (discardRemaining : Bool) :
    (Solution.end' discardRemaining).Ensures sol
      (fun tr o sol' ↦ sol.Advances .end' tr o sol') := by
  simp only [Solution.end', ensures_get_bind, ensures_assert_bind]
  refine ⟨fun hsome ↦ ?_, fun hnone ↦ advances_of_broken (.inr rfl) ?_⟩
  · have hnext : sol.phase.next .end' = .closed := by
      rw [phase_opened hsome]
      rfl
    have hbroken : sol.phase.next .end' ≠ .broken := by simp [hnext]
    have hbody : (endCommunicate >>= fun status ↦ conclude discardRemaining status).Ensures sol
        (fun _ o _ ↦ ¬ Misused o) := by
      have htalk := (inside_communicating hlib).meets_endCommunicate (fun _ ↦ trivial)
        (fun _ _ _ _ ↦ trivial) (fun _ _ ↦ .inl (by simp [inside, Misused])) sol hsome
      refine htalk.sequence ?_ ?_ ?_
      · intro tr status t _
        refine (conclude_throws t discardRemaining status).mono (fun _ o _ h hmisused ↦ ?_)
        rcases hmisused with heq | heq
        · exact h _ heq
        · exact h _ heq
      · intro tr e t h
        obtain hok | ⟨_, _, hfalse⟩ := h.2.2 e rfl
        · simpa [inside, Misused] using hok
        · exact hfalse.elim
      · exact fun _ _ _ ↦ by simp [Misused]
    refine Ensures.scopeExit (hbody.mono (fun tr o t h ↦ ?_))
    cases o with
    | returned result => exact advances_of_returned (hnext ▸ rfl) hbroken
    | raised e =>
      cases e with
      | abort msg => exact advances_of_abort h hbroken
      | exception e =>
        exact ⟨iff_of_false (not_misused_exception e) hbroken, fun _ _ ↦ hnext ▸ rfl⟩
    | pending => exact advances_of_pending hbroken
  · rw [phase_closed hnone]
    rfl

theorem advances_map {sol : Solution lib} {kind : Kind} {m : Calls (Solution lib) α} (g : α → β)
    (h : m.Ensures sol (fun tr o sol' ↦ sol.Advances kind tr o sol')) :
    (m >>= fun a ↦ pure (g a)).Ensures sol (fun tr o sol' ↦ sol.Advances kind tr o sol') := by
  refine h.sequence ?_ ?_ ?_
  · intro tr a t ht
    simp only [ensures_pure, List.append_nil]
    exact ⟨by simpa [Misused] using ht.misused, fun hsound _ ↦ ht.exits hsound trivial⟩
  · intro tr e t ht
    refine ⟨by simpa [Misused] using ht.misused, fun hsound hexit ↦ ht.exits hsound ?_⟩
    cases e with
    | abort => exact hexit.elim
    | exception => trivial
  · intro tr t ht
    exact ⟨by simpa [Misused] using ht.misused, fun _ h ↦ h.elim⟩

theorem work_advances (hlib : lib.Discreet) (b : BrokerImpl lib) (c : BrokerImpl.Command)
    (sol : Solution lib) :
    (b.work c).Ensures sol (fun tr o sol' ↦ sol.Advances c.kind tr o sol') := by
  cases c with
  | begin₁ | begin₂ | begin₃ => exact advances_map _ (begin_advances hlib sol _ _)
  | send => exact advances_map _ (send_advances sol _)
  | end' => exact advances_map _ (end_advances hlib sol _)
  | terminate => exact advances_map _ (terminate_advances sol)

end Solution

namespace BrokerImpl

variable {b b' b'' : BrokerImpl lib} {h : List Exchange} {x : Exchange} {id : SolutionId}
  {sol : Solution lib}

def calls (id : SolutionId) (h : List Exchange) : List Command.Kind :=
  (h.filter (·.command.id = id)).map (·.command.kind)

theorem calls_snoc_self :
    calls x.command.id (h ++ [x]) = calls x.command.id h ++ [x.command.kind] := by
  simp [calls]

theorem calls_snoc_other (hid : x.command.id ≠ id) : calls id (h ++ [x]) = calls id h := by
  simp [calls, hid]

theorem serves_advances (hlib : lib.Discreet) (hx : Serves b x b')
    (hsol : b.solutions[x.command.id.toNat]? = some sol) :
    ∃ sol', sol.Advances x.command.kind x.trace x.outcome sol' ∧
      b'.solutions[x.command.id.toNat]? = some sol' := by
  obtain ⟨-, sol', hwork, hsol'⟩ | ⟨hne, -⟩ := serves_at hx hsol
  · exact ⟨sol', Solution.work_advances hlib b x.command sol _ _ _ hwork, hsol'⟩
  · exact absurd rfl hne

def Tracked (h : List Exchange) (b : BrokerImpl lib) : Prop :=
  ∀ id sol, b.solutions[id.toNat]? = some sol → sol.phase = tracker.eval (calls id h)

theorem found_of_exits (hx : Serves b x b') (hexit : Exits x.outcome) :
    ∃ sol, b.solutions[x.command.id.toNat]? = some sol := by
  rcases serves_cases hx with ⟨sol, sol', hsol, -⟩ | ⟨-, -, -, ho⟩
  · exact ⟨sol, hsol⟩
  · rw [ho] at hexit
    exact hexit.elim

theorem Tracked.step (hlib : lib.Discreet) (ht : Tracked h b) (hx : Serves b x b')
    (hexit : Exits x.outcome) (hsound : ∀ e ∈ x.trace, e.Sound lib) : Tracked (h ++ [x]) b' := by
  intro i sol' hsol'
  by_cases hid : x.command.id = i
  · subst hid
    obtain ⟨sol, hsol⟩ := found_of_exits hx hexit
    obtain ⟨t, hadv, ht'⟩ := serves_advances hlib hx hsol
    obtain rfl : t = sol' := Option.some.inj (ht'.symm.trans hsol')
    rw [calls_snoc_self, DFA.eval_append_singleton, ← ht _ _ hsol]
    exact hadv.exits hsound hexit
  · have hne : i.toNat ≠ x.command.id.toNat := fun h ↦ hid (UInt64.toNat_inj.mp h).symm
    rw [serves_frame hx hne] at hsol'
    rw [calls_snoc_other hid]
    exact ht i sol' hsol'

theorem Tracked.run (hlib : lib.Discreet) (h₀ : Tracked [] b) (hp : Path Serves b h b')
    (hexit : ∀ y ∈ h, Exits y.outcome) (hsound : ∀ y ∈ h, ∀ e ∈ y.trace, e.Sound lib) :
    Tracked h b' := by
  suffices hI : (∀ y ∈ h, Exits y.outcome ∧ ∀ e ∈ y.trace, e.Sound lib) → Tracked h b' from
    hI (fun y hy ↦ ⟨hexit y hy, hsound y hy⟩)
  refine hp.invariant (I := fun h b' ↦
    (∀ y ∈ h, Exits y.outcome ∧ ∀ e ∈ y.trace, e.Sound lib) → Tracked h b') (fun _ ↦ h₀) ?_
  intro h t x u _ ih hx hall
  obtain ⟨hhead, hlast⟩ := List.forall_mem_append.mp hall
  obtain ⟨hexit, hsound⟩ := hlast x (List.mem_singleton_self x)
  exact (ih hhead).step hlib hx hexit hsound

theorem tracked_ready (options : Options) : Tracked [] (ready options : BrokerImpl lib) := by
  intro i sol hsol
  obtain ⟨process, -, rfl⟩ := List.mem_map.mp (List.mem_of_getElem? hsol)
  rfl

theorem serves_length (hx : Serves b x b') : b'.solutions.length = b.solutions.length := by
  rcases serves_cases hx with ⟨sol, sol', -, -, rfl⟩ | ⟨-, rfl, -⟩
  · exact List.length_set
  · rfl

/-- The commands to a solution are misused exactly when they stop being the beginning of a word
of the lifecycle. -/
theorem lifecycle_iff {options : Options} {startup : List Event} (hlib : lib.Discreet)
    (h₀ : Started options startup b) (hp : Path Serves b h b') (hx : Serves b' x b'')
    (hids : ∀ y ∈ h ++ [x], y.command.id.toNat < options.solutions.length)
    (hexit : ∀ y ∈ h, Exits y.outcome)
    (hsound : ∀ y ∈ h ++ [x], ∀ e ∈ y.trace, e.Sound lib) :
    (Misused x.outcome ↔ ¬ ∃ v ∈ lifecycle.matches', calls x.command.id (h ++ [x]) <+: v) ∧
    (∀ id sol, b'.solutions[id.toNat]? = some sol →
      (sol.tokenizer ≠ none ↔ ∃ u ∈ lifecycle.matches', ∃ n, calls id h = u ++ opening n)) ∧
    (Exits x.outcome → x.command.kind = .end' ∨ x.command.kind = .terminate →
      ∀ y b₃, Serves b'' y b₃ → y.command.id = x.command.id → y.command.kind = .begin →
        ¬ Misused y.outcome) := by
  obtain ⟨-, rfl⟩ := started_spec h₀
  obtain ⟨hsound, hlast⟩ := List.forall_mem_append.mp hsound
  have htracked := (tracked_ready options).run hlib hp hexit hsound
  have hlen : b'.solutions.length = options.solutions.length := by
    refine hp.preserves (I := fun c : BrokerImpl lib ↦
      c.solutions.length = options.solutions.length) ?_ (by simp [ready])
    exact fun _ _ _ hx h ↦ (serves_length hx).trans h
  have hlt : x.command.id.toNat < b'.solutions.length := by
    rw [hlen]
    exact hids x (List.mem_append_right _ (List.mem_singleton_self x))
  obtain ⟨sol', hadv, hsol'⟩ := serves_advances hlib hx (List.getElem?_eq_getElem hlt)
  refine ⟨?_, fun i sol hsol ↦ ?_, fun hexit hkind y b₃ hy hid hbegin ↦ ?_⟩
  · rw [hadv.misused, beginning_iff, not_not, calls_snoc_self, DFA.eval_append_singleton,
      ← htracked _ _ (List.getElem?_eq_getElem hlt)]
    rfl
  · rw [← opened_iff, ← htracked i sol hsol, Solution.phase_eq_opened]
  · have hphase := hadv.exits (hlast x (List.mem_singleton_self x)) hexit
    have hclosed : sol'.phase = .closed := by
      have hne := sol'.phase_ne_broken
      rcases hkind with hkind | hkind <;> rw [hkind] at hphase <;>
        cases hbefore : b'.solutions[x.command.id.toNat].phase <;>
        simp_all [Phase.next]
    have hfound : b''.solutions[y.command.id.toNat]? = some sol' := by rw [hid, hsol']
    obtain ⟨t, hadv', -⟩ := serves_advances hlib hy hfound
    rw [hadv'.misused, hclosed, hbegin]
    simp [Phase.next]

theorem splitChar_discreet : SplitChar.library.Discreet := by
  have hasserts : ∀ msg, SplitChar.library.Asserts msg → msg = "size == 1" := by
    intro msg h
    rcases h with ⟨argument, h⟩ | ⟨tokenizer, data, h⟩
    · simp only [SplitChar.library, SplitChar.new] at h
      split at h <;> cases h
      rfl
    · simp only [SplitChar.library, SplitChar.parse] at h
      split at h <;> cases h
  constructor
  · intro h
    exact absurd (hasserts _ h) (by decide)
  · intro h
    exact absurd (hasserts _ h) (by decide)

/-- The iteration is left by the exception of a read that fails. -/
def interrupted : List Exchange × BrokerImpl SplitChar.library :=
  (ready Options.single).replay [(.begin₁ 0, [{}]), (.end' 0 false, List.replicate 11
    { epollWait := .ok [{ fd := 5, EPOLLIN := true }], read := .error (.other 5) })]

theorem interrupted_eq : interrupted.1 = [⟨.begin₁ 0, .returned none, [.newTokenizer [10] true]⟩,
    ⟨.end' 0 false, .raised (.exception (.systemError "read" (.other 5))),
      [.indeterminate .OK, .killer .UNFREEZE 10 (.ok .OK), .now 0, .epollCreate1 (.ok ()),
        .epollCtlAdd 4 { fd := 4, EPOLLOUT := true } (.ok ()),
        .epollCtlAdd 5 { fd := 5, EPOLLIN := true } (.ok ()), .now 0,
        .epollWait (.ok [{ fd := 5, EPOLLIN := true }]), .now 0,
        .read 5 (.error (.other 5))]⟩] := by
  cbv

theorem lifecycle_iff_interrupted :
    Misused (.raised (.abort "Begin was not called!") : Outcome Failure (Option Result)) ↔
      ¬ ∃ v ∈ lifecycle.matches', calls 0 (interrupted.1 ++
        [⟨.send 0 [], .raised (.abort "Begin was not called!"), []⟩]) <+: v := by
  have hx : Serves interrupted.2
      ⟨.send 0 [], .raised (.abort "Begin was not called!"), []⟩ interrupted.2 := ⟨[], rfl⟩
  have hrun : Path Serves (ready Options.single) interrupted.1 interrupted.2 := replay_serves _ _
  refine (lifecycle_iff splitChar_discreet single_started hrun hx ?_ ?_ ?_).1
  · simp [interrupted_eq, Command.id, Options.single]
  · simp [interrupted_eq, Exits]
  · have hnew : ∃ tokenizer, SplitChar.library.newTokenizer [10] = .ok tokenizer := ⟨⟨10⟩, rfl⟩
    simp [interrupted_eq, Event.Sound, hnew]

end BrokerImpl

end FlowctlGame
