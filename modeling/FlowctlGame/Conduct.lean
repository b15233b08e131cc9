import FlowctlGame.Iteration
import FlowctlGame.Interaction.Contract

namespace FlowctlGame.Solution

open Interaction Program Unistd Broker

variable {lib : TokenizerLibrary} {C : Contract Event (Solution lib) Failure} {α : Type}

/-- The tokenizer call on `buf` aborts with the text `msg`. -/
inductive Chokes (sol : Solution lib) (buf : Bytes) : String → Prop
  | absent (h : sol.tokenizer = none) : Chokes sol buf "sol.tokenizer"
  | failed {tokenizer : lib.Instance} {msg : String} (h : sol.tokenizer = some tokenizer)
      (hcall : lib.call tokenizer buf = .error msg) : Chokes sol buf msg

/-- What a contract has to grant to the handling of events. -/
structure Handling (C : Contract Event (Solution lib) Failure) : Prop where
  deregisters : ∀ fd r, C.allowed (.epollCtlDel fd r)
  writes : ∀ sol, C.invariant sol → ∀ data r, C.allowed (.write sol.process.inFd data r)
  reads : ∀ sol, C.invariant sol → ∀ r, C.allowed (.read sol.process.outFd r)
  drained : ∀ sol, C.invariant sol → ∀ n, C.invariant { sol with inbuf := sol.inbuf.drop n }
  absorbed : ∀ sol, C.invariant sol → sol.tokenizerStatus = .CONTINUE → ∀ buf, buf ≠ [] →
    C.invariant (sol.absorb buf)
  chokes : ∀ sol, C.invariant sol → sol.tokenizerStatus = .CONTINUE → ∀ buf, buf ≠ [] →
    ∀ msg, sol.Chokes buf msg → C.error (.abort msg)
  unexpected : C.error (.abort "Unexpected event.")
  throws : ∀ e, C.error (.exception e)

namespace Handling

theorem meets_throw (hC : Handling C) (e : Exception) :
    (throw e : Calls (Solution lib) α).Meets C :=
  meets_raise (hC.throws e)

theorem meets_checked (hC : Handling C) (call : String) (r : Except Errno α) :
    (checked call r : Calls (Solution lib) α).Meets C := by
  cases r with
  | ok a => exact meets_pure a
  | error e => exact hC.meets_throw _

theorem meets_epollCtlDel (hC : Handling C) (fd : Fd) :
    (epollCtlDel fd : Calls (Solution lib) Unit).Meets C :=
  (meets_ask (hC.deregisters fd)).bind (hC.meets_checked _)

theorem meets_writeLoop (hC : Handling C) : (writeLoop : Calls (Solution lib) Unit).Meets C := by
  refine Meets.loop (fun _ sol hs ↦ ?_) ()
  simp only [ensures_get_bind]
  split
  · exact meets_pure _ sol hs
  · simp only [write, ensures_ask_bind]
    refine ⟨⟨hs, by simp, fun _ h ↦ by cases h⟩, fun m ↦ ?_⟩
    have hallowed (r : Except Errno ℕ) :
        ∀ e ∈ [Event.write sol.process.inFd (sol.inbuf.take BUFSIZ) r], C.allowed e :=
      List.forall_mem_singleton.mpr (hC.writes sol hs _ _)
    split
    · rename_i he
      simp only [ensures_pure, he]
      exact ⟨hs, hallowed _, fun _ h ↦ by cases h⟩
    · rename_i e he hne
      simp only [ensures_throw, hne]
      refine ⟨hs, hallowed _, fun err h ↦ ?_⟩
      cases h
      exact .inl (hC.throws _)
    · rename_i size hsize
      simp only [ensures_modify_bind, ensures_pure, hsize]
      exact ⟨hC.drained sol hs size, hallowed _, fun _ h ↦ by cases h⟩

theorem meets_handleWriteEnd (hC : Handling C) (ev : EpollEvent) :
    (handleWriteEnd ev : Calls (Solution lib) Unit).Meets C := by
  refine meets_get_bind (fun sol _ ↦ ?_)
  split
  · exact hC.meets_epollCtlDel _
  · refine Meets.bind ?_ (fun _ ↦ ?_)
    · unfold assert
      split
      · exact meets_pure ()
      · exact meets_raise hC.unexpected
    · split
      · exact meets_pure ()
      · refine hC.meets_writeLoop.bind (fun _ ↦ meets_get_bind (fun sol' _ ↦ ?_))
        split
        · exact hC.meets_epollCtlDel _
        · exact meets_pure ()

theorem handleChunk_ensures (hC : Handling C) {sol : Solution lib} (hs : C.invariant sol)
    (hcont : sol.tokenizerStatus = .CONTINUE) {buf : Bytes} (hbuf : buf ≠ []) :
    (handleChunk buf).Ensures sol (fun tr o sol' ↦ C.invariant sol' ∧ (∀ e ∈ tr, C.allowed e) ∧
      ∀ err, o = .raised err → C.error err ∨ ∃ e ∈ tr, C.fatal e) := by
  have habsorbed := hC.absorbed sol hs hcont buf hbuf
  have hchokes := hC.chokes sol hs hcont buf hbuf
  simp only [absorb] at habsorbed
  simp only [handleChunk, callTokenizer, bind_assoc, ensures_get_bind]
  cases ht : sol.tokenizer with
  | none => simpa using ⟨hs, hchokes _ (.absent ht)⟩
  | some tokenizer =>
    cases hc : lib.call tokenizer buf with
    | error msg => simpa [hc] using ⟨hs, hchokes _ (.failed ht hc)⟩
    | ok r =>
      simp only [hc, bind_assoc, ensures_modify_bind, pure_bind]
      cases hr : r.1.status with
      | FAIL =>
        simp only [ht, hc, hr] at habsorbed
        simp [habsorbed, hC.deregisters, hC.throws]
      | CONTINUE =>
        simp only [ht, hc, hr] at habsorbed
        simpa using habsorbed
      | ACCEPTED =>
        simp only [ht, hc, hr] at habsorbed
        simpa using habsorbed

theorem meets_readLoop (hC : Handling C) : (readLoop : Calls (Solution lib) Unit).Meets C := by
  refine Meets.loop (fun _ sol hs ↦ ?_) ()
  simp only [ensures_get_bind]
  split
  · exact meets_pure _ sol hs
  · rename_i hstatus
    have hcont : sol.tokenizerStatus = .CONTINUE := by simpa using hstatus
    simp only [Unistd.read, ensures_ask_bind]
    refine ⟨⟨hs, by simp, fun _ h ↦ by cases h⟩, fun m ↦ ?_⟩
    have hallowed (r : Except Errno Bytes) : C.allowed (.read sol.process.outFd r) :=
      hC.reads sol hs r
    split
    · rename_i hr
      simp only [ensures_pure, hr]
      exact ⟨hs, List.forall_mem_singleton.mpr (hallowed _), fun _ h ↦ by cases h⟩
    · rename_i hr
      simp only [ensures_pure, hr]
      exact ⟨hs, List.forall_mem_singleton.mpr (hallowed _), fun _ h ↦ by cases h⟩
    · rename_i e he hr
      simp only [ensures_throw, hr]
      refine ⟨hs, List.forall_mem_singleton.mpr (hallowed _), fun err h ↦ ?_⟩
      cases h
      exact .inl (hC.throws _)
    · rename_i buf hne hr
      have hbuf : buf ≠ [] := fun h ↦ hne (by rw [h])
      have hafter (tr : List Event) (o : Outcome Failure Unit) (sol' : Solution lib)
          (h : C.invariant sol' ∧ (∀ e ∈ tr, C.allowed e) ∧
            ∀ err, o = .raised err → C.error err ∨ ∃ e ∈ tr, C.fatal e) :
          C.invariant sol' ∧ (∀ e ∈ .read sol.process.outFd m.readUpTo :: tr, C.allowed e) ∧
            ∀ err, o = .raised err →
              C.error err ∨ ∃ e ∈ .read sol.process.outFd m.readUpTo :: tr, C.fatal e := by
        refine ⟨h.1, List.forall_mem_cons.mpr ⟨hallowed _, h.2.1⟩, fun err ho ↦ ?_⟩
        refine (h.2.2 err ho).imp_right (fun hfatal ↦ ?_)
        obtain ⟨e, hmem, hfatal⟩ := hfatal
        exact ⟨e, List.mem_cons_of_mem _ hmem, hfatal⟩
      refine (hC.handleChunk_ensures hs hcont hbuf).sequence ?_ ?_ ?_
      · intro tr _ sol' h
        simp only [ensures_pure, List.append_nil]
        obtain ⟨hinv, hall, -⟩ := hafter tr _ sol' h
        exact ⟨hinv, hall, fun _ h ↦ by cases h⟩
      · intro tr e sol' h
        obtain ⟨hinv, hall, herror⟩ := hafter tr _ sol' h
        refine ⟨hinv, hall, fun err heq ↦ ?_⟩
        cases heq
        exact herror e rfl
      · intro tr sol' h
        obtain ⟨hinv, hall, -⟩ := hafter tr _ sol' h
        exact ⟨hinv, hall, fun _ h ↦ by cases h⟩

theorem meets_handleReadEnd (hC : Handling C) (ev : EpollEvent) :
    (handleReadEnd ev : Calls (Solution lib) (Option Result.Status)).Meets C := by
  rw [handleReadEnd_eq]
  split
  · exact meets_pure _
  · exact hC.meets_readLoop.bind (fun _ ↦ meets_pure _)

theorem meets_handleEvents (hC : Handling C) (events : List EpollEvent) :
    (handleEvents events : Calls (Solution lib) (Option Result.Status)).Meets C := by
  induction events with
  | nil => exact meets_pure _
  | cons ev events ih =>
    refine meets_get_bind (fun sol _ ↦ ?_)
    split
    · exact (hC.meets_handleWriteEnd ev).bind (fun _ ↦ ih)
    · split
      · refine (hC.meets_handleReadEnd ev).bind (fun status ↦ ?_)
        split
        · exact meets_pure _
        · exact ih
      · exact ih

end Handling

/-- What a contract has to grant to `communicate`. -/
structure Communicating (C : Contract Event (Solution lib) Failure) : Prop
    extends Handling C where
  quiet : ∀ e, e.Quiet → C.allowed e
  uncalled : ∀ sol, C.invariant sol → sol.tokenizer = none →
    C.error (.abort "Begin was not called!")

namespace Communicating

theorem meets_clockNow (hC : Communicating C) : (clockNow : Calls (Solution lib) Int).Meets C :=
  meets_ask (fun _ ↦ hC.quiet _ (by trivial))

theorem meets_poll (hC : Communicating C) (untilPoint : Int) (b : List EpollEvent × Int) :
    (poll untilPoint b : Calls (Solution lib) _).Meets C := by
  refine Meets.loop (fun b ↦ ?_) b
  obtain ⟨events, now⟩ := b
  dsimp only
  split
  · have hwait : (epollWait : Calls (Solution lib) (List EpollEvent)).Meets C :=
      (meets_ask (fun _ ↦ hC.quiet _ (by trivial))).bind (hC.meets_checked _)
    exact hwait.bind (fun _ ↦ hC.meets_clockNow.bind (fun _ ↦ meets_pure _))
  · exact meets_pure _

theorem meets_round (hC : Communicating C) (untilPoint : Int) :
    (round untilPoint () : Calls (Solution lib) _).Meets C := by
  refine meets_get_bind (fun sol _ ↦ ?_)
  split
  · exact meets_pure _
  · refine hC.meets_clockNow.bind (fun now ↦ (hC.meets_poll untilPoint _).bind (fun b ↦ ?_))
    obtain ⟨events, now⟩ := b
    dsimp only
    split
    · exact meets_pure _
    · refine (hC.meets_handleEvents events).bind (fun status ↦ ?_)
      split <;> exact meets_pure _

theorem meets_communicate (hC : Communicating C) :
    (communicate : Calls (Solution lib) Result.Status).Meets C := by
  have hcreate : (epollCreate1 : Calls (Solution lib) Unit).Meets C :=
    (meets_ask (fun _ ↦ hC.quiet _ (by trivial))).bind (hC.meets_checked _)
  have hadd (fd : Fd) (ev : EpollEvent) : (epollCtlAdd fd ev : Calls (Solution lib) Unit).Meets C :=
    (meets_ask (fun _ ↦ hC.quiet _ (by trivial))).bind (hC.meets_checked _)
  refine meets_get_bind (fun sol hs ↦ Meets.bind ?_ (fun _ ↦ ?_))
  · unfold assert
    split
    · exact meets_pure ()
    · rename_i h
      exact meets_raise (hC.uncalled sol hs (by simpa using h))
  · refine hC.meets_clockNow.bind (fun start ↦ hcreate.bind (fun _ ↦ ?_))
    refine (hadd _ _).bind (fun _ ↦ (hadd _ _).bind (fun _ ↦ ?_))
    exact Meets.loop (fun _ ↦ hC.meets_round _) ()

theorem meets_guardedRequest (hC : Communicating C)
    (hkills : ∀ sol, C.invariant sol → ∀ act r, C.allowed (.killer act sol.process.id r))
    (hprotects : ∀ act id, C.error (.abort "Invalid configuration.") ∨
      C.fatal (.killer act id (.ok .PROTECTED))) (act : Killer.Act) :
    (do let sol ← get
        let status ← killerRequest act sol.process.id
        assert (status ≠ .PROTECTED) "Invalid configuration."
        pure status : Calls (Solution lib) Killer.Status).Meets C := by
  intro sol hs
  simp only [ensures_get_bind, ensures_killerRequest_bind, ensures_assert_bind, ensures_pure]
  have hallowed (r : Except Exception Killer.Status) :
      ∀ e ∈ [Event.killer act sol.process.id r], C.allowed e :=
    List.forall_mem_singleton.mpr (hkills sol hs _ _)
  refine ⟨⟨hs, by simp, fun _ h ↦ by cases h⟩, fun status ↦ ⟨fun _ ↦ ?_, fun hp ↦ ?_⟩, fun e ↦ ?_⟩
  · exact ⟨hs, hallowed _, fun _ h ↦ by cases h⟩
  · rw [not_not] at hp
    subst hp
    refine ⟨hs, hallowed _, fun err h ↦ ?_⟩
    cases h
    exact (hprotects act sol.process.id).imp_right (fun h ↦ ⟨_, List.mem_singleton_self _, h⟩)
  · refine ⟨hs, hallowed _, fun err h ↦ ?_⟩
    cases h
    exact .inl (hC.throws e)

theorem meets_endCommunicate (hC : Communicating C)
    (hindeterminate : ∀ status, C.allowed (.indeterminate status))
    (hkills : ∀ sol, C.invariant sol → ∀ act r, C.allowed (.killer act sol.process.id r))
    (hprotects : ∀ act id, C.error (.abort "Invalid configuration.") ∨
      C.fatal (.killer act id (.ok .PROTECTED))) :
    (endCommunicate : Calls (Solution lib) Result.Status).Meets C := by
  refine Meets.bind (meets_ask hindeterminate) (fun status ↦ meets_get_bind (fun sol _ ↦ ?_))
  split
  · refine (hC.meets_guardedRequest hkills hprotects .UNFREEZE).bind (fun _ ↦ ?_)
    refine hC.meets_communicate.bind (fun _ ↦ ?_)
    exact (hC.meets_guardedRequest hkills hprotects .FREEZE).bind (fun _ ↦ meets_pure _)
  · exact meets_pure _

end Communicating

/-- What a contract has to grant to every command. -/
structure Serving (C : Contract Event (Solution lib) Failure) : Prop
    extends Communicating C where
  indeterminate : ∀ status, C.allowed (.indeterminate status)
  news : ∀ argument allocated, C.allowed (.newTokenizer argument allocated)
  kills : ∀ sol, C.invariant sol → ∀ act r, C.allowed (.killer act sol.process.id r)
  protects : ∀ act id, C.error (.abort "Invalid configuration.") ∨
    C.fatal (.killer act id (.ok .PROTECTED))
  twice : ∀ sol, C.invariant sol → sol.tokenizer ≠ none →
    C.error (.abort "Begin was already called!")
  refuses : ∀ argument msg, lib.newTokenizer argument = .error msg → C.error (.abort msg)
  opened : ∀ sol, C.invariant sol → ∀ argument tokenizer limits,
    lib.newTokenizer argument = .ok tokenizer → C.invariant (sol.opened tokenizer limits)
  begun : ∀ sol, C.invariant sol → ∀ argument limits sol', sol.Begun argument limits sol' →
    C.invariant sol'
  sent : ∀ sol, C.invariant sol → ∀ msg, C.invariant { sol with inbuf := sol.inbuf ++ msg }
  discarded : ∀ sol, C.invariant sol → C.invariant { sol with inbuf := [] }
  dropped : ∀ sol, C.invariant sol → C.invariant sol.dropped
  closed : ∀ sol, C.invariant sol → C.invariant { sol with tokenizer := none }

namespace Serving

theorem meets_begin (hC : Serving C) (argument : TokenizerArgument) (limits : ResourceLimits) :
    (begin argument limits : Calls (Solution lib) Unit).Meets C := by
  intro sol hs
  simp only [begin, newTokenizer, ensures_get_bind, ensures_assert_bind, bind_assoc,
    ensures_ask_bind]
  have hnews (allocated : Bool) : ∀ e ∈ [Event.newTokenizer argument allocated], C.allowed e :=
    List.forall_mem_singleton.mpr (hC.news _ _)
  refine ⟨fun _ ↦ ⟨⟨hs, by simp, fun _ h ↦ by cases h⟩, fun m ↦ ?_⟩, fun htok ↦ ?_⟩
  · cases hnew : lib.newTokenizer argument with
    | error msg =>
      simp only [ensures_raise_bind]
      refine ⟨hs, hnews _, fun err h ↦ ?_⟩
      cases h
      exact .inl (hC.refuses argument msg hnew)
    | ok tokenizer =>
      cases m.allocated with
      | false =>
        simp only [Bool.false_eq_true, if_false, Unistd.throw, ensures_raise_bind]
        refine ⟨hs, hnews _, fun err h ↦ ?_⟩
        cases h
        exact .inl (hC.throws _)
      | true =>
        simp only [if_true, pure_bind, ensures_modify_bind]
        have hopened := hC.opened sol hs argument tokenizer limits hnew
        split
        · rename_i hout
          simp only [callTokenizer, bind_assoc, ensures_get_bind]
          cases hc : lib.call tokenizer sol.outbuf with
          | error msg =>
            simp only [ensures_raise_bind]
            refine ⟨hopened, hnews _, fun err h ↦ ?_⟩
            cases h
            exact .inl (hC.chokes _ hopened rfl _ hout _ (.failed rfl hc))
          | ok r =>
            obtain ⟨⟨status, n⟩, tokenizer'⟩ := r
            simp only [bind_assoc, ensures_modify_bind, pure_bind]
            have hbegun {sol' : Solution lib} (h : sol.Begun argument limits sol') :=
              hC.begun sol hs argument limits sol' h
            cases status with
            | FAIL => simpa using ⟨hbegun (.failed hnew hout hc), hC.news argument true⟩
            | CONTINUE => simpa using ⟨hbegun (.continued hnew hout hc), hC.news argument true⟩
            | ACCEPTED => simpa using ⟨hbegun (.accepted hnew hout hc), hC.news argument true⟩
        · simpa using ⟨hopened, hC.news argument true⟩
  · refine ⟨hs, by simp, fun err h ↦ ?_⟩
    cases h
    exact .inl (hC.twice sol hs (by simpa using htok))

theorem meets_terminate (hC : Serving C) : (terminate : Calls (Solution lib) Unit).Meets C := by
  intro sol hs
  simp only [terminate, ensures_get_bind, ensures_killerRequest_bind, ensures_modify]
  have hkills (r : Except Exception Killer.Status) :
      ∀ e ∈ [Event.killer .TERMINATE sol.process.id r], C.allowed e :=
    List.forall_mem_singleton.mpr (hC.kills sol hs _ _)
  refine ⟨⟨hs, by simp, fun _ h ↦ by cases h⟩,
    fun status ↦ ⟨hC.dropped sol hs, hkills _, fun _ h ↦ by cases h⟩, fun e ↦ ?_⟩
  refine ⟨hs, hkills _, fun err h ↦ ?_⟩
  cases h
  exact .inl (hC.throws e)

theorem meets_called (hC : Serving C) {m : Calls (Solution lib) α} (hm : m.Meets C) :
    (do let sol ← get
        assert (sol.tokenizer.isSome = true) "Begin was not called!"
        m : Calls (Solution lib) α).Meets C := by
  refine meets_get_bind (fun sol hs ↦ Meets.bind ?_ (fun _ ↦ hm))
  unfold assert
  split
  · exact meets_pure ()
  · rename_i h
    exact meets_raise (hC.uncalled sol hs (by simpa using h))

theorem meets_send (hC : Serving C) (msg : Bytes) :
    (send msg : Calls (Solution lib) Unit).Meets C :=
  hC.meets_called (meets_modify (fun sol hs ↦ hC.sent sol hs msg))

theorem meets_endCommunicate (hC : Serving C) :
    (endCommunicate : Calls (Solution lib) Result.Status).Meets C :=
  hC.toCommunicating.meets_endCommunicate hC.indeterminate hC.kills hC.protects

theorem meets_conclude (hC : Serving C) (discardRemaining : Bool) (status : Result.Status) :
    (conclude discardRemaining status : Calls (Solution lib) Result).Meets C := by
  have hrest : (if status ≠ .OK then do terminate; pure ⟨status, []⟩
      else verdict : Calls (Solution lib) Result).Meets C := by
    split
    · exact hC.meets_terminate.bind (fun _ ↦ meets_pure _)
    · refine meets_get_bind (fun sol _ ↦ ?_)
      split <;> exact meets_pure _
  unfold conclude
  cases discardRemaining with
  | false => exact hrest
  | true => exact .bind (meets_modify hC.discarded) (fun _ ↦ hrest)

theorem meets_end (hC : Serving C) (discardRemaining : Bool) :
    (end' discardRemaining : Calls (Solution lib) Result).Meets C := by
  refine hC.meets_called (Meets.scopeExit ?_ hC.closed)
  exact hC.meets_endCommunicate.bind (fun status ↦ hC.meets_conclude discardRemaining status)

end Serving

end FlowctlGame.Solution
