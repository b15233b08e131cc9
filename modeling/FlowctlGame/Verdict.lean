import FlowctlGame.Session

namespace FlowctlGame

open Interaction Unistd Broker

variable {lib : TokenizerLibrary} {tr rest : List Event} {sol sol' : Solution lib}
  {result : Result} {garbage : Result.Status} {discardRemaining : Bool}

namespace Solution

/-- The part of `end` up to the second `freeze`, with the status that `communicate` has
reported, if it was run. -/
inductive Heard (sol : Solution lib) : List Event → Option Result.Status → Solution lib → Prop
  | decided {garbage : Result.Status} (hs : sol.tokenizerStatus ≠ .CONTINUE) :
      Heard sol [.indeterminate garbage] none sol
  | exchanged {sol' : Solution lib} {tr : List Event} {status garbage : Result.Status}
      {thaw ice : Killer.Status} (hs : sol.tokenizerStatus = .CONTINUE)
      (hrun : communicate.Executes sol tr (.returned status) sol') :
      Heard sol (.indeterminate garbage :: .killer .UNFREEZE sol.process.id (.ok thaw) ::
        (tr ++ [.killer .FREEZE sol.process.id (.ok ice)])) (some status) sol'

/-- The solution is killed for the real-time limit only, and otherwise the tokenizer has
the last word. -/
structure TrueVerdict (sol sol' : Solution lib) (reported : Option Result.Status)
    (tr : List Event) (result : Result) : Prop where
  terminates : (∃ reply, .killer .TERMINATE sol.process.id reply ∈ tr) ↔
    reported = some .REAL_TIME_LIMIT_EXCEEDED
  limit : reported = some .REAL_TIME_LIMIT_EXCEEDED → result.status = .REAL_TIME_LIMIT_EXCEEDED
  verdict : reported ≠ some .REAL_TIME_LIMIT_EXCEEDED → result = sol'.judged
  untouched : reported = none → ∀ e ∈ tr, e.transfers = false

def EndsTruly (sol : Solution lib) (tr : List Event) (result : Result) : Prop :=
  ∃ talk rest reported sol', tr = talk ++ rest ∧ sol.Heard talk reported sol' ∧
    sol.TrueVerdict sol' reported tr result

theorem Heard.reported_of_decided {talk : List Event} {reported : Option Result.Status}
    (h : sol.Heard talk reported sol') (hs : sol.tokenizerStatus ≠ .CONTINUE) :
    reported = none := by
  cases h with
  | decided => rfl
  | exchanged hs' => exact absurd hs' hs

theorem communicate_reports {status : Result.Status}
    (hrun : communicate.Executes sol tr (.returned status) sol') (hs : status ≠ .OK) :
    status = .REAL_TIME_LIMIT_EXCEEDED := by
  have hconcl := (communicate_spec _ _ _ _ hrun).2 status rfl
  cases status with
  | OK => exact absurd rfl hs
  | REAL_TIME_LIMIT_EXCEEDED => rfl
  | _ => exact hconcl.elim

theorem Ended.true_of_judged (hc : sol.Communicated tr .OK sol') :
    sol.EndsTruly tr sol'.judged := by
  have hno := hc.not_terminate sol.process.id
  cases hc with
  | decided hs =>
    refine ⟨_, [], none, sol, (List.append_nil _).symm, .decided hs, ?_⟩
    exact ⟨⟨fun h ↦ absurd h (not_exists.mpr hno), fun h ↦ by cases h⟩, (fun h ↦ by cases h),
      fun _ ↦ rfl, by simp [Event.transfers]⟩
  | exchanged hs hrun =>
    refine ⟨_, [], some .OK, sol', (List.append_nil _).symm, .exchanged hs hrun, ?_⟩
    exact ⟨⟨fun h ↦ absurd h (not_exists.mpr hno), fun h ↦ by cases h⟩, (fun h ↦ by cases h),
      fun _ ↦ rfl, fun h ↦ by cases h⟩

theorem Ended.true_of_limit {status garbage : Result.Status} {thaw ice reply : Killer.Status}
    (hs : sol.tokenizerStatus = .CONTINUE)
    (hrun : communicate.Executes sol tr (.returned status) sol') (hne : status ≠ .OK) :
    sol.EndsTruly (.indeterminate garbage :: .killer .UNFREEZE sol.process.id (.ok thaw) ::
      (tr ++ [.killer .FREEZE sol.process.id (.ok ice)]) ++
        [.killer .TERMINATE sol.process.id (.ok reply)]) ⟨status, []⟩ := by
  obtain rfl := communicate_reports hrun hne
  refine ⟨_, [.killer .TERMINATE sol.process.id (.ok reply)], some .REAL_TIME_LIMIT_EXCEEDED,
    sol', rfl, .exchanged hs hrun, ?_⟩
  exact ⟨⟨fun _ ↦ rfl, fun _ ↦ ⟨_, List.mem_append_right _ (List.mem_singleton.mpr rfl)⟩⟩,
    fun _ ↦ rfl, fun h ↦ absurd rfl h, fun h ↦ by cases h⟩

theorem EndsTruly.alive (h : sol.EndsTruly tr result) (hs : sol.tokenizerStatus ≠ .CONTINUE)
    (r : Except Exception Killer.Status) : .killer .TERMINATE sol.process.id r ∉ tr := by
  obtain ⟨talk, rest, reported, t, -, hheard, hv⟩ := h
  intro hr
  have hlimit := hv.terminates.mp ⟨r, hr⟩
  rw [hheard.reported_of_decided hs] at hlimit
  cases hlimit

theorem Ended.endsTruly_iff (he : sol.Ended discardRemaining tr result sol')
    (hg : tr.head? = some (.indeterminate garbage)) :
    sol.EndsTruly tr result ↔ sol.tokenizerStatus = .CONTINUE ∨ garbage = .OK := by
  constructor
  · intro htrue
    by_cases hs : sol.tokenizerStatus = .CONTINUE
    · exact .inl hs
    · cases he with
      | judged hc =>
        cases hc with
        | decided => exact .inr (by simpa using hg.symm)
        | exchanged hs' => exact absurd hs' hs
      | @terminated _ _ _ reply hc =>
        have hno := htrue.alive hs (.ok reply)
        simp [hc.process_eq] at hno
  · intro hcond
    cases he with
    | judged hc => exact true_of_judged hc
    | terminated hc hne =>
      cases hc with
      | decided hs =>
        rcases hcond with hs' | hok
        · exact absurd hs' hs
        · simp only [List.cons_append, List.nil_append, List.head?_cons, Option.some.injEq,
            Event.indeterminate.injEq] at hg
          exact absurd (hg.trans hok) hne
      | exchanged hs hrun =>
        rw [path_process_eq (communicate_spec _ _ _ _ hrun).1]
        exact true_of_limit hs hrun hne

theorem Ended.head_indeterminate (he : sol.Ended discardRemaining tr result sol') :
    ∃ garbage, tr.head? = some (.indeterminate garbage) := by
  cases he with
  | judged hc => cases hc <;> exact ⟨_, rfl⟩
  | terminated hc => cases hc <;> exact ⟨_, rfl⟩

end Solution

namespace BrokerImpl

/-- An `end` tells the truth exactly if it communicates, or if the status that it never
assigns happens to be `OK`. -/
theorem end_tells_truth_iff {b b' : BrokerImpl lib} {x : Exchange} {id : SolutionId}
    (hx : Serves b x b') (hc : x.command = .end' id discardRemaining)
    (hr : x.outcome = .returned (some result)) :
    ∃ sol garbage, b.solutions[id.toNat]? = some sol ∧
      x.trace.head? = some (.indeterminate garbage) ∧
        (sol.EndsTruly x.trace result ↔ sol.tokenizerStatus = .CONTINUE ∨ garbage = .OK) := by
  obtain ⟨sol, sol', reply, hsol, hout, he, -⟩ := answers_cases ⟨hx, _, hr⟩
  obtain ⟨command, outcome, tr⟩ := x
  dsimp only at hc hr hsol hout he ⊢
  subst hc
  rw [hr] at hout
  cases hout
  cases he with
  | ended htok hended =>
    obtain ⟨garbage, hg⟩ := hended.head_indeterminate
    exact ⟨sol, garbage, hsol, hg, hended.endsTruly_iff hg⟩

/-- The answers under which the first read brings two tokens. -/
def bothTokens (status : Result.Status) : Answer where
  epollWait := .ok [{ fd := 5, EPOLLIN := true }]
  read := .ok [97, 10, 98, 10]
  indeterminate := status

def leftoversDecided : List Exchange × BrokerImpl SplitChar.library :=
  (ready Options.single : BrokerImpl SplitChar.library).replay
    [(.begin₁ 0, [bothTokens .OK]), (.end' 0 false, List.replicate 12 (bothTokens .OK)),
      (.begin₁ 0, [bothTokens .OK])]

def endLeftovers (status : Result.Status) : Exchange :=
  let x := (run (.end' 0 false)).run leftoversDecided.2 [bothTokens status, bothTokens status]
  ⟨.end' 0 false, x.outcome, x.trace⟩

theorem end_tells_truth_iff_leftovers :
    ∃ sol garbage, leftoversDecided.2.solutions[0]? = some sol ∧
      (endLeftovers .OK).trace.head? = some (.indeterminate garbage) ∧
        (sol.EndsTruly (endLeftovers .OK).trace ⟨.OK, [98, 10]⟩ ↔
          sol.tokenizerStatus = .CONTINUE ∨ garbage = .OK) := by
  have hx : Serves leftoversDecided.2 (endLeftovers .OK) _ := Program.executes_run _ _ _
  have hc : (endLeftovers .OK).command = .end' 0 false := rfl
  exact end_tells_truth_iff hx hc rfl

/-- With another value in the unassigned status, the accepted token is withheld and the
solution is killed. -/
theorem end_kills_after_leftovers :
    Path Answers (ready Options.single) leftoversDecided.1 leftoversDecided.2 ∧
      ∃ sol b' result, leftoversDecided.2.solutions[0]? = some sol ∧
        Serves leftoversDecided.2 (endLeftovers .REAL_TIME_LIMIT_EXCEEDED) b' ∧
          (endLeftovers .REAL_TIME_LIMIT_EXCEEDED).outcome = .returned (some result) ∧
            ¬ sol.EndsTruly (endLeftovers .REAL_TIME_LIMIT_EXCEEDED).trace result := by
  refine ⟨replay_path _ _ (by decide), _, _, _, rfl, Program.executes_run _ _ _, rfl,
    fun htrue ↦ ?_⟩
  exact htrue.alive (by decide) (.ok .OK) (.tail _ (.head _))

end BrokerImpl

end FlowctlGame
