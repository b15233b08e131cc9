import FlowctlGame.Conversation
import FlowctlGame.Game

namespace FlowctlGame

open Interaction Program Unistd Broker

namespace BrokerImpl

variable {lib : TokenizerLibrary} {b b' : BrokerImpl lib} {h : List Exchange} {id : SolutionId}

def Exchange.reply (x : Exchange) : Option Result :=
  match x.outcome with
  | .returned reply => reply
  | _ => none

def replies (id : SolutionId) (h : List Exchange) : List Result :=
  h.filterMap (fun x ↦ if x.command.id = id then x.reply else none)

theorem replies_own {c : Command} {reply : Option Result} {tr : List Event} (hid : c.id = id) :
    replies id (⟨c, .returned reply, tr⟩ :: h) = reply.toList ++ replies id h := by
  cases reply <;> simp [replies, Exchange.reply, hid]

theorem replies_other {x : Exchange} (hid : x.command.id ≠ id) :
    replies id (x :: h) = replies id h := by
  simp [replies, hid]

theorem replies_cons (c : Command) (reply : Option Result) (tr : List Event) (h : List Exchange) :
    replies id (⟨c, .returned reply, tr⟩ :: h) =
      (if c.id = id then reply.toList else []) ++ replies id h := by
  by_cases hid : c.id = id
  · rw [replies_own hid, if_pos hid]
  · rw [replies_other hid, if_neg hid, List.nil_append]

theorem ended_closes {sol sol' : Solution lib} {discardRemaining : Bool} {tr : List Event}
    {result : Result} (h : sol.Ended discardRemaining tr result sol') : sol'.tokenizer = none := by
  cases h <;> rfl

theorem iterations_replies {sol : Solution lib} {current : Option TokenizerArgument}
    (hp : Path Answers b h b') (hsol : b.solutions[id.toNat]? = some sol)
    (hopen : sol.tokenizer ≠ none → current ≠ none) :
    (b.iterations id current h).map Prod.snd = replies id h := by
  induction hp generalizing sol current with
  | nil => rfl
  | @cons b c _ x h hx _ ih =>
    have hopens : ∀ current', c.iterations id current' h = b.iterations id current' h :=
      fun _ ↦ iterations_congr (serves_opens hx.1)
    simp only [hopens] at ih
    rcases answers_at hx hsol with
      ⟨hid, sol', reply, hr, he, hsol'⟩ | ⟨hid, hsol', -⟩
    · obtain ⟨command, outcome, tr⟩ := x
      dsimp only at hid hr he
      subst hr
      rw [replies_own hid]
      cases he with
      | @begun _ _ _ argument _ hc =>
        have hsome := ih hsol' (fun _ ↦ Option.some_ne_none argument)
        simpa [iterations, hid, hc] using hsome
      | sent => simpa [iterations, hid, opens] using ih hsol' hopen
      | terminated => simpa [iterations, hid, opens] using ih hsol' (fun h ↦ absurd rfl h)
      | ended htok hended =>
        obtain ⟨argument, rfl⟩ := Option.ne_none_iff_exists'.mp (hopen htok)
        have hnone : (b.iterations id none h).map Prod.snd = replies id h :=
          ih hsol' (fun h ↦ absurd (ended_closes hended) h)
        simpa [iterations, hid, opens] using hnone
    · rw [replies_other hid]
      simpa [iterations, hid] using ih hsol' hopen

theorem answers_running {x : Exchange} (hx : Answers b x b') (hc : ∀ i, x.command ≠ .terminate i)
    (hok : ∀ r ∈ x.reply, r.status = .OK) (pid : Killer.Id) (r : Except Exception Killer.Status) :
    .killer .TERMINATE pid r ∉ x.trace := by
  obtain ⟨sol, sol', reply, -, hr, he, -⟩ := answers_cases hx
  obtain ⟨command, outcome, tr⟩ := x
  dsimp only at hr he hc ⊢
  subst hr
  cases he with
  | begun | sent => simp
  | terminated => exact absurd rfl (hc _)
  | ended _ hended =>
    cases hended with
    | judged hcommunicated => exact hcommunicated.not_terminate pid r
    | terminated _ hs => exact absurd (hok _ rfl) hs

theorem drain_kept (fd : Fd) (f : Fifo UInt8) (tr : List Event) :
    (drain fd f tr).kept = f.kept := by
  induction tr generalizing f with
  | nil => rfl
  | cons e tr ih =>
    refine (ih (Event.drain fd f e)).trans ?_
    unfold Event.drain
    split
    · split <;> rfl
    · rfl

theorem kept_push (f : Fifo UInt8) (xs : Bytes) : (f.push xs).kept = f.kept ++ xs := by
  simp [Fifo.kept_eq, Fifo.push]

theorem inbox_kept {process : Process} (hclears : ∀ x ∈ h, x.command.id = id → x.clears = false) :
    (inbox id process h).kept = messages id h := by
  suffices key : ∀ f : Fifo UInt8,
      (h.foldl (serve id process) f).kept = f.kept ++ messages id h from key .empty
  induction h with
  | nil => exact fun f ↦ (List.append_nil _).symm
  | cons x h ih =>
    intro f
    obtain ⟨hx, hclears⟩ := List.forall_mem_cons.mp hclears
    have hserve : (serve id process f x).kept =
        f.kept ++ (if x.command.id = id then x.command.message else []) := by
      unfold serve
      by_cases hid : x.command.id = id
      · simp [hid, hx hid, kept_push, drain_kept]
      · simp [hid, drain_kept]
    rw [List.foldl_cons, ih hclears, hserve, List.append_assoc]
    rfl

/-- A solution is spoken to without being terminated, and nothing it was sent is discarded. -/
structure Converses (b : BrokerImpl lib) (c : UInt8) (command : Command) : Prop where
  running : ∀ i, command ≠ .terminate i
  keeping : ∀ i, command ≠ .end' i true
  argument : ∀ argument limits, b.opens command = some (argument, limits) → argument = [c]

theorem Converses.clears {x : Exchange} {c : UInt8} (h : b.Converses c x.command)
    (hx : ∀ pid r, .killer .TERMINATE pid r ∉ x.trace) : x.clears = false := by
  obtain ⟨command, outcome, tr⟩ := x
  cases command with
  | begin₁ | begin₂ | begin₃ | send => rfl
  | terminate i => exact absurd rfl (h.running i)
  | end' i discardRemaining =>
    have hquiet : tr.any Event.terminates = false := by
      refine List.any_eq_false.mpr (fun e he hterminates ↦ ?_)
      unfold Event.terminates at hterminates
      split at hterminates
      · exact hx _ _ he
      · cases hterminates
    cases discardRemaining with
    | true => exact absurd rfl (h.keeping i)
    | false => simp [Exchange.clears, hquiet]

/-- As long as all is well, a program that copies its input returns the lines it was sent. -/
theorem echo_replies {options : Options} {startup : List Event} {process : Process}
    {capacities : Capacities} {side : Side Worker.echo} {steps : List (Event ⊕ Act)} {c : UInt8}
    {b b' : BrokerImpl SplitChar.library} (hw : options.WellFormed)
    (h₀ : Started options startup b) (hp : Path Answers b h b')
    (hid : options.solutions[id.toNat]? = some process)
    (hcommands : ∀ x ∈ h, x.command.id = id → b.Converses c x.command)
    (hworld : Path (Side.Step capacities process) ({ state := none } : Side Worker.echo) steps side)
    (hcalls : Interaction.calls steps = startup ++ h.flatMap (·.trace))
    (hok : ∀ r ∈ replies id h, r.status = .OK) :
    (replies id h).map (·.data) <+: SplitChar.pieces c (messages id h) := by
  have hrunning : ∀ x ∈ h, x.command.id = id →
      ∀ pid r, .killer .TERMINATE pid r ∉ x.trace := by
    intro x hx hxid
    obtain ⟨_, _, hanswers⟩ := hp.step_of_mem hx
    refine answers_running hanswers (hcommands x hx hxid).running (fun r hr ↦ hok r ?_)
    exact List.mem_filterMap.mpr ⟨x, hx, by rw [if_pos hxid, hr]⟩
  have hsol : b.solutions[id.toNat]? =
      some (readySolution options.defaultResourceLimits process) := by
    rw [(started_spec h₀).2]
    exact ready_solution hid
  have hreplies : (b.iterations id none h).map Prod.snd = replies id h :=
    iterations_replies hp hsol (fun htok ↦ absurd rfl htok)
  have hlines := echo_lines hw h₀ hp hid (fun x hx hxid reply ↦ hrunning x hx hxid _ reply)
    (fun x hx hxid argument limits hopens ↦ (hcommands x hx hxid).argument argument limits hopens)
    hworld hcalls (fun x hx ↦ hok x.2 (hreplies ▸ List.mem_map_of_mem hx))
  rw [inbox_kept (fun x hx hxid ↦ (hcommands x hx hxid).clears (hrunning x hx hxid))] at hlines
  rw [← hreplies, List.map_map]
  exact hlines

end BrokerImpl

namespace SplitChar

theorem pieces_append (c : UInt8) (data more : Bytes) :
    pieces c data <+: pieces c (data ++ more) := by
  induction data with
  | nil => exact List.nil_prefix
  | cons d data ih =>
    rw [List.cons_append, pieces, pieces]
    split
    · exact List.cons_prefix_cons.mpr ⟨rfl, ih⟩
    · cases hpieces : pieces c data with
      | nil => exact List.nil_prefix
      | cons piece rest =>
        obtain ⟨rest', hrest'⟩ := hpieces ▸ ih
        rw [← hrest']
        exact ⟨rest', rfl⟩

end SplitChar

namespace BrokerMain

open BrokerInterface

variable {lib : TokenizerLibrary} {b b' : BrokerImpl lib} {calls : List Call}
  {tr : List Unistd.Event} {results : List Result}

def answersTo {α : Type} (id : SolutionId) (calls : List Call) (results : List α) : List α :=
  ((calls.filter Call.ends).zip results).filterMap
    (fun x ↦ if x.1.target.id = id then some x.2 else none)

theorem answersTo_quiet {α : Type} {id : SolutionId} {c : Call} (hc : c.ends = false)
    (results : List α) : answersTo id (c :: calls) results = answersTo id calls results := by
  simp [answersTo, hc]

theorem answersTo_cons {α : Type} {id : SolutionId} {c : Call} (hc : c.ends = true) (r : α)
    (results : List α) : answersTo id (c :: calls) (r :: results) =
      (if c.target.id = id then [r] else []) ++ answersTo id calls results := by
  by_cases hid : c.target.id = id <;> simp [answersTo, hc, hid]

theorem Direct.completed {o : Outcome Failure Empty} (h : Direct b calls tr results o b')
    (id : SolutionId) (n : ℕ) : ∃ answered b₁ rest, Path BrokerImpl.Answers b answered b₁ ∧
      answered.map (·.command) <+: calls.map Call.target ∧
        tr = answered.flatMap (·.trace) ++ rest ∧
          BrokerImpl.replies id answered = answersTo id calls (results.take n) := by
  induction h generalizing n with
  | idle | done | calling | failed | answered =>
    refine ⟨[], _, _, .nil _, List.nil_prefix, rfl, ?_⟩
    simp [BrokerImpl.replies, answersTo]
  | @unnamed b b' c calls tr r hcall =>
    have hends : c.ends = true := by
      rw [← BrokerTextInterface.isEnd_target, ← serves_reply hcall]
      rfl
    cases n with
    | zero =>
      refine ⟨[], _, _, .nil _, List.nil_prefix, rfl, ?_⟩
      simp [BrokerImpl.replies, answersTo]
    | succ n =>
      refine ⟨[⟨c.target, .returned (some r), tr⟩], b', [], .one ⟨hcall, _, rfl⟩, ?_, ?_, ?_⟩
      · exact List.cons_prefix_cons.mpr ⟨rfl, List.nil_prefix⟩
      · simp
      · rw [List.take_succ_cons, List.take_nil, answersTo_cons hends, BrokerImpl.replies_cons]
        simp [BrokerImpl.replies, answersTo]
  | @next b _ _ c calls tr tr' reply results _ hcall _ _ ih =>
    have hreply : reply.isSome = c.ends := by
      rw [serves_reply hcall, BrokerTextInterface.isEnd_target]
    have hgo (m : ℕ) (hm : (reply.toList ++ results).take n = reply.toList ++ results.take m) :
        ∃ answered b₁ rest, Path BrokerImpl.Answers b answered b₁ ∧
          answered.map (·.command) <+: (c :: calls).map Call.target ∧
            tr ++ tr' = answered.flatMap (·.trace) ++ rest ∧
              BrokerImpl.replies id answered =
                answersTo id (c :: calls) ((reply.toList ++ results).take n) := by
      obtain ⟨answered, b₁, rest, hpath, hcommands, rfl, hreplies⟩ := ih m
      refine ⟨⟨c.target, .returned reply, tr⟩ :: answered, b₁, rest,
        .cons ⟨hcall, reply, rfl⟩ hpath, ?_, ?_, ?_⟩
      · exact List.cons_prefix_cons.mpr ⟨rfl, hcommands⟩
      · rw [List.flatMap_cons, List.append_assoc]
      · rw [BrokerImpl.replies_cons, hreplies, hm]
        cases reply with
        | none =>
          rw [Option.toList_none, ite_self, List.nil_append, List.nil_append,
            answersTo_quiet hreply.symm]
        | some r => exact (answersTo_cons hreply.symm r _).symm
    cases reply with
    | none => exact hgo n rfl
    | some r =>
      cases n with
      | zero =>
        refine ⟨[], _, _, .nil _, List.nil_prefix, rfl, ?_⟩
        simp [BrokerImpl.replies, answersTo]
      | succ n => exact hgo n rfl

end BrokerMain

namespace Judge

def Call.message (id : SolutionId) : Call → Bytes
  | .send i msg => if i = id.toNat then msg else []
  | _ => []

/-- The judge reads what the solution `id` says line by line, and does not give it up. -/
def Call.ByLines (defaultArgument : TokenizerArgument) (id : SolutionId) (call : Call) : Prop :=
  call.id = id.toNat → match call with
    | .begin₁ _ => defaultArgument = [10]
    | .begin₂ _ tokenizer_argument | .begin₃ _ tokenizer_argument _ => tokenizer_argument = [10]
    | .send _ _ => True
    | .end' _ discardRemaining => discardRemaining ≠ some true
    | .terminate _ => False

def resultsOf {α : Type} (id : SolutionId) (calls : List Call) (results : List α) : List α :=
  ((calls.filter Call.ends).zip results).filterMap
    (fun x ↦ if x.1.id = id.toNat then some x.2 else none)

theorem resultsOf_map {α β : Type} (id : SolutionId) (calls : List Call) (f : α → β)
    (results : List α) :
    resultsOf id calls (results.map f) = (resultsOf id calls results).map f := by
  simp only [resultsOf, List.zip_map_right, List.filterMap_map, List.map_filterMap]
  congr 1
  funext x
  by_cases hid : x.1.id = id.toNat <;> simp [hid]

theorem target_id {id : SolutionId} {call : Call} (h : call.Fits) :
    call.request.target.id = id ↔ call.id = id.toNat := by
  have hid : call.request.target.id = UInt64.ofNat call.id := by
    cases call with
    | end' id discardRemaining => cases discardRemaining <;> rfl
    | _ => rfl
  rw [hid, ← UInt64.toNat_inj, UInt64.toNat_ofNat_of_lt' h.id_lt]

theorem answersTo_request {α : Type} {id : SolutionId} {calls : List Call}
    (hfits : ∀ c ∈ calls, c.Fits) (results : List α) :
    BrokerMain.answersTo id (calls.map Call.request) results = resultsOf id calls results := by
  have hends : (BrokerInterface.Call.ends ∘ Call.request) = Call.ends := funext ends_request
  rw [BrokerMain.answersTo, List.filter_map, hends, List.zip_map_left, List.filterMap_map]
  refine List.filterMap_congr (fun x hx ↦ ?_)
  have hmem := List.mem_of_mem_filter (List.of_mem_zip hx).1
  simp only [Function.comp_apply, Prod.map_fst, Prod.map_snd, id_eq, target_id (hfits _ hmem)]

theorem fromLine_ok {casts : BrokerInterface.Casts} {r : Broker.Result} {r' : Result}
    (h : Result.fromLine (BrokerMain.written casts r) = .ok r') :
    ∃ hr : r.status.Named, r' = ⟨casts.status.print ⟨r.status, hr⟩, r.data⟩ := by
  by_cases hr : r.status.Named
  · refine ⟨hr, ?_⟩
    have hline := fromLine_resultLine casts hr
    rw [BrokerMain.written, if_pos hr, BrokerTextInterface.resultText, dif_pos hr, hline] at h
    exact (Except.ok.inj h).symm
  · rw [BrokerMain.written, if_neg hr] at h
    cases h

def okText (casts : BrokerInterface.Casts) : Bytes := casts.status.print ⟨.OK, trivial⟩

end Judge

namespace Game

variable {lib : TokenizerLibrary} {casts : BrokerInterface.Casts} {options : BrokerImpl.Options}

theorem ok_results {read : List Judge.Result} {results : List Result}
    (h : read.map .ok = results.map (fun r ↦ Judge.Result.fromLine (BrokerMain.written casts r)))
    (hok : ∀ r ∈ read, r.status = Judge.okText casts) :
    (∀ r ∈ results, r.status = .OK) ∧ read.map (·.data) = results.map (·.data) := by
  induction results generalizing read with
  | nil =>
    obtain rfl : read = [] := by simpa using h
    exact ⟨List.forall_mem_nil _, rfl⟩
  | cons r results ih =>
    cases read with
    | nil => cases h
    | cons r' read =>
      obtain ⟨hr, hrest⟩ := List.cons.inj h
      obtain ⟨hnamed, rfl⟩ := Judge.fromLine_ok hr.symm
      obtain ⟨htext, hall⟩ := List.forall_mem_cons.mp hok
      obtain ⟨hrest, hdata⟩ := ih hrest hall
      have hstatus : (⟨r.status, hnamed⟩ : { status : Result.Status // status.Named }) =
          ⟨.OK, trivial⟩ := casts.status.print_injective htext
      refine ⟨List.forall_mem_cons.mpr ⟨congrArg Subtype.val hstatus, hrest⟩, ?_⟩
      rw [List.map_cons, List.map_cons, hdata]

theorem Inv.resultsOf {s : Game lib} (h : Inv casts options s) {results : List Result}
    (houtputs : BrokerMain.outputs s.trace = results.map (BrokerMain.written casts))
    (id : SolutionId) : (Judge.resultsOf id s.calls s.results).map .ok =
      (Judge.resultsOf id s.calls (results.take s.results.length)).map
        (fun r ↦ Judge.Result.fromLine (BrokerMain.written casts r)) := by
  rw [← Judge.resultsOf_map, h.returned, houtputs, ← List.map_take, List.map_map,
    ← Judge.resultsOf_map]
  rfl

theorem messages_prefix (id : SolutionId) {calls : List Judge.Call}
    (hfits : ∀ c ∈ calls, c.Fits) {answered : List BrokerImpl.Exchange}
    (hcommands : answered.map (·.command) <+:
      (calls.map Judge.Call.request).map BrokerInterface.Call.target) :
    BrokerImpl.messages id answered <+: calls.flatMap (Judge.Call.message id) := by
  have hsame : calls.flatMap (Judge.Call.message id) =
      ((calls.map Judge.Call.request).map BrokerInterface.Call.target).flatMap
        (fun c ↦ if c.id = id then c.message else []) := by
    rw [List.flatMap_map, List.flatMap_map]
    refine List.flatMap_congr (fun c hc ↦ ?_)
    simp only [Judge.target_id (hfits c hc)]
    cases c with
    | end' i discardRemaining => cases discardRemaining <;> exact (ite_self []).symm
    | send i msg => rfl
    | _ => exact (ite_self []).symm
  obtain ⟨more, hmore⟩ := hcommands
  rw [hsame, ← hmore, List.flatMap_append, List.flatMap_map]
  exact List.prefix_append _ _

theorem converses_request {b : BrokerImpl lib} {id : SolutionId} {c : Judge.Call} (hfits : c.Fits)
    (hlines : c.ByLines b.defaultTokenizerArgument id) (hid : c.request.target.id = id) :
    b.Converses 10 c.request.target := by
  have hown := hlines ((Judge.target_id hfits).mp hid)
  cases c with
  | begin₁ | begin₂ | begin₃ =>
    refine ⟨nofun, nofun, fun argument limits hopens ↦ ?_⟩
    cases hopens
    exact hown
  | send i msg => exact ⟨nofun, nofun, nofun⟩
  | end' i discardRemaining =>
    cases discardRemaining with
    | none => exact ⟨nofun, nofun, nofun⟩
    | some discardRemaining =>
      refine ⟨nofun, fun j hcommand ↦ ?_, nofun⟩
      cases hcommand
      exact hown rfl
  | terminate i => exact hown.elim

/-- A judge that talks with a solution by lines, where the solution's program copies what it
reads: as long as it gets `OK`, the data are the lines it has sent, one after the other. -/
theorem echo_loop {s : Game SplitChar.library} {capacity : ℕ} {parties : List Party}
    {id : SolutionId} {process : Process} {capacities : Capacities} {side : Side Worker.echo}
    {steps : List (Event ⊕ Act)} (hcasts : Judge.Decimal casts) (hw : options.WellFormed)
    (hid : options.solutions[id.toNat]? = some process)
    (hp : Path (Step casts options capacity) (start casts options) parties s)
    (hworld : Path (Side.Step capacities process) ({ state := none } : Side Worker.echo) steps side)
    (hcalls : Interaction.calls steps = BrokerMain.systems s.trace)
    (hlines : ∀ c ∈ s.calls, c.ByLines options.defaultTokenizerArgument id)
    (hok : ∀ r ∈ Judge.resultsOf id s.calls s.results, r.status = Judge.okText casts) :
    (Judge.resultsOf id s.calls s.results).map (·.data) <+:
      SplitChar.pieces 10 (s.calls.flatMap (Judge.Call.message id)) := by
  have h : Inv casts options s :=
    hp.preserves (fun _ _ _ hs h ↦ h.step hcasts hs) (inv_start casts options)
  obtain ⟨results, f, hclient, -, houtputs, -⟩ := h.results hcasts
  obtain ⟨hok, hdata⟩ := ok_results (h.resultsOf houtputs id) hok
  rw [hdata]
  rw [← Judge.answersTo_request h.fits] at hok ⊢
  generalize hsystems : BrokerMain.systems s.trace = tr at hclient hcalls
  cases hclient with
  | constructing | crashed => simp [BrokerMain.answersTo]
  | started hstarted hdirect =>
    obtain ⟨answered, b₁, rest, hpath, hcommands, rfl, hreplies⟩ :=
      hdirect.completed id s.results.length
    rw [← hreplies] at hok ⊢
    -- the world up to the end of the last call that has been answered
    rw [← List.append_assoc] at hcalls
    obtain ⟨steps, steps', rfl, hanswered, -⟩ := List.filterMap_eq_append_iff.mp hcalls
    obtain ⟨side', hworld, -⟩ := hworld.split
    refine (BrokerImpl.echo_replies (c := 10) hw hstarted hpath hid (fun x hx hxid ↦ ?_) hworld
      hanswered hok).trans ?_
    · obtain ⟨c, hc, hcommand⟩ : ∃ c ∈ s.calls, c.request.target = x.command := by
        simpa using hcommands.subset (List.mem_map_of_mem hx)
      rw [← hcommand] at hxid ⊢
      refine converses_request (h.fits c hc) ?_ hxid
      rw [(BrokerImpl.started_spec hstarted).2]
      exact hlines c hc
    · obtain ⟨more, hmore⟩ := messages_prefix id h.fits hcommands
      rw [← hmore]
      exact SplitChar.pieces_append _ _ _

def sending : Game SplitChar.library :=
  { start BrokerInterface.decimalCasts BrokerImpl.Options.single with
    calls := [.begin₁ 0, .send 0 [97, 10], .end' 0 none]
    requests := Judge.Call.printed (.begin₁ 0) ++ Judge.Call.printed (.send 0 [97, 10]) ++
      Judge.Call.printed (.end' 0 none)
    flushing := true
    waiting := true }

def copyingAnswers : List BrokerMain.Answer :=
  BrokerMain.lineSession.quiet 5 ++ typed (.begin₁ 0) ++ BrokerMain.lineSession.quiet 1 ++
    typed (.send 0 [97, 10]) ++ typed (.end' 0 none) ++ BrokerMain.lineSession.quiet 7 ++
      copied.map (fun m ↦ { system := m })
where
  typed (c : Judge.Call) : List BrokerMain.Answer := c.printed.map (fun c ↦ { input := some c })
  copied : List Unistd.Answer :=
    [{ epollWait := .ok [{ fd := 4, EPOLLOUT := true }] }, {}, { write := .ok 1 }, {}, {},
      { epollWait := .ok [{ fd := 5, EPOLLIN := true }] }, {}, { read := .ok [97, 10] }, {}, {}]

def copying : Execution BrokerMain.Event (BrokerImpl SplitChar.library) String ℕ :=
  (BrokerMain.main BrokerInterface.decimalCasts).run (BrokerImpl.new BrokerImpl.Options.single)
    copyingAnswers

theorem copying_trace : BrokerMain.inputs copying.trace = sending.requests.map some ∧
    (BrokerMain.outputs copying.trace).flatten = [79, 75, 32, 97, 92, 110] ++ [10] := by
  decide +kernel

deriving instance DecidableEq for Unistd.Event

theorem copying_systems : Interaction.calls BrokerImpl.copiedSteps =
    BrokerMain.systems copying.trace := by
  decide +kernel

theorem path_sending : Path (Step BrokerInterface.decimalCasts BrokerImpl.Options.single 64)
    (start BrokerInterface.decimalCasts BrokerImpl.Options.single)
    ([.judge, .judge] ++ [.judge, .judge] ++ [.judge, .judge]) sending := by
  have hid : 0 < 2 ^ 64 := Nat.two_pow_pos 64
  refine ((path_call (c := .begin₁ 0) hid rfl rfl rfl ?_ ?_).append
    (path_call (c := .send 0 [97, 10]) hid rfl rfl rfl ?_ ?_)).append
      (path_call (c := .end' 0 none) hid rfl rfl rfl ?_ ?_)
  all_goals decide +kernel

theorem echo_loop_copying : ∃ s : Game SplitChar.library,
    s.results = [⟨[79, 75], [97, 10]⟩] ∧ (Judge.resultsOf 0 s.calls s.results).map (·.data) <+:
      SplitChar.pieces 10 (s.calls.flatMap (Judge.Call.message 0)) := by
  obtain ⟨s, hcopied, hresults, hcalls, htrace⟩ : ∃ s : Game SplitChar.library,
      Path (Step BrokerInterface.decimalCasts BrokerImpl.Options.single 64) sending
        [.broker, .judge] s ∧
      s.results = [⟨[79, 75], [97, 10]⟩] ∧ s.calls = sending.calls ∧ s.trace = copying.trace := by
    refine ⟨_, path_reply (x := copying) (r := ⟨[79, 75], [97, 10]⟩)
      (executes_run _ _ copyingAnswers) rfl rfl rfl rfl rfl rfl copying_trace.1 copying_trace.2
        ?_ ?_, ?_, ?_, ?_⟩
    · decide
    · decide
    · rfl
    · rfl
    · with_reducible rfl
  have hprocess : BrokerImpl.Options.single.solutions[(0 : SolutionId).toNat]? =
      some ⟨4, 5, 10⟩ := rfl
  refine ⟨s, hresults, echo_loop Judge.decimal_decimalCasts BrokerImpl.single_wellFormed hprocess
    (path_sending.append hcopied) BrokerImpl.copiedRun_world (htrace ▸ copying_systems) ?_ ?_⟩
  · rw [hcalls]
    simp [sending, Judge.Call.ByLines, BrokerImpl.Options.single]
  · rw [hcalls, hresults]
    decide +kernel

end Game

end FlowctlGame
