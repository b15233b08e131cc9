import FlowctlGame.Transfer
import FlowctlGame.BrokerImpl

namespace FlowctlGame.Solution

open Interaction Program Unistd Broker

variable {lib : TokenizerLibrary}

/-- The record with a new tokenizer that has seen nothing yet. -/
def opened (sol : Solution lib) (tokenizer : lib.Instance) (resourceLimits : ResourceLimits) :
    Solution lib :=
  { sol with
    tokenizer := some tokenizer
    tokenizerStatus := .CONTINUE
    result := []
    resourceLimits := resourceLimits }

/-- The effect of a `begin` that returns: the tokenizer sees the leftovers of the earlier
iterations, if there are any. -/
inductive Begun (sol : Solution lib) (argument : TokenizerArgument) (limits : ResourceLimits) :
    Solution lib → Prop
  | fresh {tokenizer : lib.Instance} (hnew : lib.newTokenizer argument = .ok tokenizer)
      (hout : sol.outbuf = []) : Begun sol argument limits (sol.opened tokenizer limits)
  | failed {tokenizer tokenizer' : lib.Instance} {n : ℕ}
      (hnew : lib.newTokenizer argument = .ok tokenizer) (hout : sol.outbuf ≠ [])
      (hcall : lib.call tokenizer sol.outbuf = .ok (⟨.FAIL, n⟩, tokenizer')) :
      Begun sol argument limits
        { sol.opened tokenizer' limits with tokenizerStatus := .FAIL }
  | continued {tokenizer tokenizer' : lib.Instance} {n : ℕ}
      (hnew : lib.newTokenizer argument = .ok tokenizer) (hout : sol.outbuf ≠ [])
      (hcall : lib.call tokenizer sol.outbuf = .ok (⟨.CONTINUE, n⟩, tokenizer')) :
      Begun sol argument limits
        { sol.opened tokenizer' limits with result := sol.outbuf, outbuf := [] }
  | accepted {tokenizer tokenizer' : lib.Instance} {n : ℕ}
      (hnew : lib.newTokenizer argument = .ok tokenizer) (hout : sol.outbuf ≠ [])
      (hcall : lib.call tokenizer sol.outbuf = .ok (⟨.ACCEPTED, n⟩, tokenizer')) :
      Begun sol argument limits
        { sol.opened tokenizer' limits with
          tokenizerStatus := .ACCEPTED
          result := sol.outbuf.take n
          outbuf := sol.outbuf.drop n }

theorem begin_spec (sol : Solution lib) (argument : TokenizerArgument) (limits : ResourceLimits) :
    (begin argument limits).Ensures sol (fun tr o sol' ↦ o = .returned () →
      sol.tokenizer = none ∧ tr = [.newTokenizer argument true] ∧
        Begun sol argument limits sol') := by
  simp only [begin, newTokenizer, ensures_get_bind, ensures_assert_bind, bind_assoc,
    ensures_ask_bind]
  refine ⟨fun hnone ↦ ⟨(fun h ↦ by cases h), fun m ↦ ?_⟩, fun _ h ↦ by cases h⟩
  have htok : sol.tokenizer = none := by simpa using hnone
  cases hnew : lib.newTokenizer argument with
  | error msg => simp
  | ok tokenizer =>
    cases ha : m.allocated with
    | false => simp [Unistd.throw]
    | true =>
      simp only [if_true, pure_bind, ensures_modify_bind]
      split
      · rename_i hout
        simp only [callTokenizer, bind_assoc, ensures_get_bind]
        cases hc : lib.call tokenizer sol.outbuf with
        | error msg => simp
        | ok r =>
          obtain ⟨⟨status, n⟩, tokenizer'⟩ := r
          simp only [bind_assoc, ensures_modify_bind, pure_bind]
          cases status with
          | FAIL => simpa using ⟨htok, .failed hnew hout hc⟩
          | CONTINUE => simpa using ⟨htok, .continued hnew hout hc⟩
          | ACCEPTED => simpa using ⟨htok, .accepted hnew hout hc⟩
      · rename_i hout
        simpa using ⟨htok, .fresh hnew (by simpa using hout)⟩

theorem Begun.inbuf_eq {sol sol' : Solution lib} {argument : TokenizerArgument}
    {limits : ResourceLimits} (h : Begun sol argument limits sol') : sol'.inbuf = sol.inbuf := by
  cases h <;> rfl

theorem Begun.process_eq {sol sol' : Solution lib} {argument : TokenizerArgument}
    {limits : ResourceLimits} (h : Begun sol argument limits sol') :
    sol'.process = sol.process := by
  cases h <;> rfl

theorem send_spec (sol : Solution lib) (msg : Bytes) :
    (send msg).Ensures sol (fun tr o sol' ↦ o = .returned () →
      sol.tokenizer ≠ none ∧ tr = [] ∧ sol' = { sol with inbuf := sol.inbuf ++ msg }) := by
  simp only [send, ensures_get_bind, ensures_assert_bind, ensures_modify]
  exact ⟨fun h _ ↦ ⟨Option.isSome_iff_ne_none.mp h, trivial, trivial⟩, fun _ h ↦ by cases h⟩

def dropped (sol : Solution lib) : Solution lib :=
  { sol with tokenizer := none, inbuf := [], outbuf := [] }

theorem terminate_spec (sol : Solution lib) :
    terminate.Ensures sol (fun tr o sol' ↦ o = .returned () →
      (∃ status, tr = [.killer .TERMINATE sol.process.id (.ok status)]) ∧ sol' = sol.dropped) := by
  simp [terminate, dropped]

/-- The first part of an `end` that returns, up to the decision to terminate. -/
inductive Communicated (sol : Solution lib) : List Event → Result.Status → Solution lib → Prop
  | decided {status : Result.Status} (hs : sol.tokenizerStatus ≠ .CONTINUE) :
      Communicated sol [.indeterminate status] status sol
  | exchanged {sol' : Solution lib} {tr : List Event} {status garbage : Result.Status}
      {thaw ice : Killer.Status} (hs : sol.tokenizerStatus = .CONTINUE)
      (hrun : communicate.Executes sol tr (.returned status) sol') :
      Communicated sol (.indeterminate garbage :: .killer .UNFREEZE sol.process.id (.ok thaw) ::
        (tr ++ [.killer .FREEZE sol.process.id (.ok ice)])) status sol'

theorem Communicated.process_eq {sol sol' : Solution lib} {tr : List Event}
    {status : Result.Status} (h : sol.Communicated tr status sol') :
    sol'.process = sol.process := by
  cases h with
  | decided => rfl
  | exchanged hs hrun => exact path_process_eq (communicate_spec _ _ _ _ hrun).1

theorem Communicated.addresses {sol sol' : Solution lib} {tr : List Event}
    {status : Result.Status} (h : sol.Communicated tr status sol') :
    ∀ e ∈ tr, e.Addresses sol.process := by
  cases h with
  | decided => simp [Event.Addresses]
  | exchanged hs hrun =>
    have hpath := path_addresses (communicate_spec _ _ _ _ hrun).1
    simpa [Event.Addresses, or_imp, forall_and] using hpath

theorem Communicated.not_terminate {sol sol' : Solution lib} {tr : List Event}
    {status : Result.Status} (h : sol.Communicated tr status sol')
    (id : Killer.Id) (r : Except Exception Killer.Status) : .killer .TERMINATE id r ∉ tr := by
  cases h with
  | decided => simp
  | exchanged hs hrun =>
    have hpath := (communicate_spec _ _ _ _ hrun).1
    simp only [List.mem_cons, List.mem_append, reduceCtorEq, Event.killer.injEq, false_and,
      List.not_mem_nil, or_false, false_or]
    exact path_killer hpath

theorem endCommunicate_spec (sol : Solution lib) :
    endCommunicate.Ensures sol (fun tr o sol' ↦ ∀ status, o = .returned status →
      Communicated sol tr status sol') := by
  simp only [endCommunicate, indeterminate, ensures_ask_bind, ensures_get_bind]
  refine ⟨(fun _ h ↦ by cases h), fun m ↦ ?_⟩
  split
  · rename_i hs
    simp only [unfreeze, bind_assoc, ensures_get_bind, ensures_killerRequest_bind,
      ensures_assert_bind, pure_bind]
    refine ⟨by simp, fun thaw ↦ ⟨fun _ ↦ ?_, by simp⟩, by simp⟩
    have hrun : communicate.Ensures sol (communicate.Executes sol) := fun _ _ _ h ↦ h
    refine hrun.sequence ?_ ?_ ?_
    · intro tr status t ht
      obtain ⟨hpath, -⟩ := communicate_spec sol _ _ _ ht
      simp only [freeze, bind_assoc, ensures_get_bind, ensures_killerRequest_bind,
        ensures_assert_bind, pure_bind, ensures_pure]
      refine ⟨by simp, fun ice ↦ ⟨fun _ status' h ↦ ?_, by simp⟩, by simp⟩
      cases h
      rw [path_process_eq hpath]
      exact .exchanged hs ht
    · exact fun _ _ _ _ _ h ↦ by cases h
    · exact fun _ _ _ _ h ↦ by cases h
  · rename_i hs
    simp only [ensures_pure]
    intro status h
    cases h
    exact .decided hs

def judged (sol : Solution lib) : Result :=
  match sol.tokenizerStatus with
  | .FAIL => ⟨.TOKENIZER_ERROR, (sol.tokenizer.bind lib.what).getD []⟩
  | .CONTINUE => ⟨.EOF_ERROR, []⟩
  | .ACCEPTED => ⟨.OK, sol.result⟩

def closed (sol : Solution lib) (discardRemaining : Bool) : Solution lib :=
  { sol with tokenizer := none, inbuf := bif discardRemaining then [] else sol.inbuf }

inductive Ended (sol : Solution lib) (discardRemaining : Bool) :
    List Event → Result → Solution lib → Prop
  | judged {sol' : Solution lib} {tr : List Event} (hc : Communicated sol tr .OK sol') :
      Ended sol discardRemaining tr sol'.judged (sol'.closed discardRemaining)
  | terminated {sol' : Solution lib} {tr : List Event} {status : Result.Status}
      {reply : Killer.Status} (hc : Communicated sol tr status sol') (hs : status ≠ .OK) :
      Ended sol discardRemaining (tr ++ [.killer .TERMINATE sol'.process.id (.ok reply)])
        ⟨status, []⟩ sol'.dropped

theorem conclude_spec (sol : Solution lib) (discardRemaining : Bool) (status : Result.Status) :
    (conclude discardRemaining status).Ensures sol (fun tr o sol' ↦ ∀ result,
      o = .returned result →
        status = .OK ∧ tr = [] ∧ result = sol.judged ∧
          sol' = { sol with inbuf := bif discardRemaining then [] else sol.inbuf } ∨
        status ≠ .OK ∧ result = ⟨status, []⟩ ∧ sol' = sol.dropped ∧
          ∃ reply, tr = [.killer .TERMINATE sol.process.id (.ok reply)]) := by
  have hverdict (t : Solution lib) :
      verdict.Ensures t (fun tr o t' ↦ tr = [] ∧ o = .returned t.judged ∧ t' = t) := by
    simp only [verdict, judged, ensures_get_bind]
    cases t.tokenizerStatus <;> simp
  have hterminate (t : Solution lib) : (terminate >>= fun _ ↦
      (pure ⟨status, []⟩ : Calls (Solution lib) Result)).Ensures t (fun tr o t' ↦
        ∀ result, o = .returned result → result = ⟨status, []⟩ ∧ t' = t.dropped ∧
          ∃ reply, tr = [.killer .TERMINATE t.process.id (.ok reply)]) := by
    simp [terminate, dropped, -bind_pure_comp]
  by_cases hs : status = .OK
  · cases discardRemaining with
    | false =>
      simp only [conclude, hs, ne_eq, not_true_eq_false, if_false, Bool.false_eq_true]
      refine (hverdict sol).mono ?_
      intro tr o t hx result h
      obtain ⟨rfl, rfl, rfl⟩ := hx
      cases h
      simp
    | true =>
      simp only [conclude, hs, ne_eq, not_true_eq_false, if_false, if_true, ensures_modify_bind]
      refine (hverdict _).mono ?_
      intro tr o t hx result h
      obtain ⟨rfl, rfl, rfl⟩ := hx
      cases h
      simp [judged]
  · cases discardRemaining with
    | false =>
      simp only [conclude, hs, ne_eq, not_false_eq_true, if_true, Bool.false_eq_true, if_false]
      refine (hterminate sol).mono ?_
      intro tr o t h result heq
      obtain rfl := heq
      exact .inr ⟨trivial, h result rfl⟩
    | true =>
      simp only [conclude, hs, ne_eq, not_false_eq_true, if_true, ensures_modify_bind]
      refine (hterminate _).mono ?_
      intro tr o t h result heq
      obtain rfl := heq
      exact .inr ⟨trivial, h result rfl⟩

theorem Ended.process_eq {sol sol' : Solution lib} {discardRemaining : Bool} {tr : List Event}
    {result : Result} (h : sol.Ended discardRemaining tr result sol') :
    sol'.process = sol.process := by
  cases h with
  | judged hc =>
    have hp := hc.process_eq
    exact hp
  | terminated hc hs =>
    have hp := hc.process_eq
    exact hp

theorem Ended.addresses {sol sol' : Solution lib} {discardRemaining : Bool} {tr : List Event}
    {result : Result} (h : sol.Ended discardRemaining tr result sol') :
    ∀ e ∈ tr, e.Addresses sol.process := by
  cases h with
  | judged hc => exact hc.addresses
  | terminated hc hs =>
    have hprocess := hc.process_eq
    simpa [Event.Addresses, or_imp, forall_and, hprocess] using hc.addresses

theorem end_spec (sol : Solution lib) (discardRemaining : Bool) :
    (end' discardRemaining).Ensures sol (fun tr o sol' ↦ ∀ result, o = .returned result →
      sol.tokenizer ≠ none ∧ Ended sol discardRemaining tr result sol') := by
  simp only [end', ensures_get_bind, ensures_assert_bind]
  refine ⟨fun hsome ↦ ?_, fun _ _ h ↦ by cases h⟩
  have htok := Option.isSome_iff_ne_none.mp hsome
  apply Ensures.scopeExit
  refine (endCommunicate_spec sol).sequence ?_ ?_ ?_
  · intro tr status t hc
    have hcomm := hc status rfl
    refine (conclude_spec t discardRemaining status).mono ?_
    intro tr' o t' h
    obtain result | e | _ := o
    · intro result' heq
      cases heq
      refine ⟨htok, ?_⟩
      obtain ⟨rfl, rfl, rfl, rfl⟩ | ⟨hs, rfl, rfl, reply, rfl⟩ := h result rfl
      · rw [List.append_nil]
        exact .judged hcomm
      · exact .terminated hcomm hs
    · exact fun _ h ↦ by cases h
    · exact fun _ h ↦ by cases h
  · exact fun _ _ _ _ _ h ↦ by cases h
  · exact fun _ _ _ _ h ↦ by cases h

end FlowctlGame.Solution
