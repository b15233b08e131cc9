import FlowctlGame.Lifecycle
import FlowctlGame.Separator

namespace FlowctlGame

open Interaction Program Unistd Broker Text

variable {lib lib' : TokenizerLibrary}

namespace TokenizerLibrary

/-- An instance, and whether it has answered `ACCEPTED` or `FAIL`. -/
structure Watched (lib : TokenizerLibrary) where
  inner : lib.Instance
  decided : Bool

/-- The library with instances that abort when they are given nothing, or called again after
`ACCEPTED` or `FAIL`. -/
def disciplined (lib : TokenizerLibrary) (msg : String) : TokenizerLibrary where
  Instance := lib.Watched
  newTokenizer argument := (lib.newTokenizer argument).map (⟨·, false⟩)
  parse (tokenizer : lib.Watched) data :=
    if tokenizer.decided = true ∨ data = [] then .error msg
    else
      match lib.parse tokenizer.inner data with
      | .error e => .error e
      | .ok (result, size, inner) => .ok (result, size, ⟨inner, decide (result ≠ 0)⟩)
  what (tokenizer : lib.Watched) := lib.what tokenizer.inner

/-- Watched or not, the library answers alike, as long as it is called in turn. -/
def disciplinedSimulation (lib : TokenizerLibrary) (msg : String) :
    (lib.disciplined msg).Simulation lib where
  forget (tokenizer : lib.Watched) := tokenizer.inner
  Admits _ := True
  Fit (tokenizer : lib.Watched) := tokenizer.decided = false
  new argument _ := by
    simp only [disciplined]
    cases lib.newTokenizer argument <;> rfl
  fresh argument tokenizer _ hnew := by
    simp only [disciplined] at hnew
    cases hargument : lib.newTokenizer argument with
    | error e => simp [hargument, Except.map] at hnew
    | ok t =>
      rw [hargument] at hnew
      cases hnew
      rfl
  call tokenizer buf hfit hbuf := by
    simp only [call, disciplined, hfit, hbuf, Bool.false_eq_true, or_self, if_false]
    cases lib.parse tokenizer.inner buf with
    | error e => rfl
    | ok r =>
      obtain ⟨result, size, t⟩ := r
      dsimp only
      split
      · rfl
      · split <;> rfl
  goes tokenizer buf n tokenizer' hfit hbuf hcall := by
    simp only [call, disciplined, hfit, hbuf, Bool.false_eq_true, or_self, if_false] at hcall
    cases hparse : lib.parse tokenizer.inner buf with
    | error e => simp [hparse] at hcall
    | ok r =>
      obtain ⟨result, size, t⟩ := r
      simp only [hparse] at hcall
      split at hcall
      · cases hcall
      · split at hcall
        · rename_i hzero
          cases hcall
          simpa using hzero
        · cases hcall
  what _ := rfl

end TokenizerLibrary

namespace Split

/-- The loop of `tokenizer_parse` that aborts also at an index that is not in `sep`. -/
def boundedFrom (msg : String) (sep : Bytes) (over' i : ℕ) :
    Bytes → Except String (Int × ℕ × Split)
  | [] => .ok (0, i, ⟨sep, over'⟩)
  | c :: data =>
    match sep[over']?, sep[0]? with
    | some next, some first =>
      let over' := if c = next then over' + 1 else if c = first then 1 else 0
      if over' = sep.length then .ok (1, i + 1, ⟨sep, over'⟩)
      else boundedFrom msg sep over' (i + 1) data
    | _, _ => .error msg

def boundedParse (msg : String) (tok : Split) (data : Bytes) :
    Except String (Int × ℕ × Split) :=
  match boundedFrom msg tok.sep tok.over' 0 data with
  | .error e => .error e
  | .ok (result, size, tok') =>
    if 0 < result ∧ ¬ (1 ≤ size ∧ size ≤ data.length) then .error msg else .ok (result, size, tok')

def bounded (msg : String) : TokenizerLibrary where
  Instance := Split
  newTokenizer := new
  parse := boundedParse msg
  what _ := none

variable {msg : String} {sep data : Bytes} {k i : ℕ}

theorem boundedFrom_cons (c : UInt8) (hk : k < sep.length) :
    boundedFrom msg sep k i (c :: data) =
      if restart sep k c = sep.length then .ok (1, i + 1, ⟨sep, restart sep k c⟩)
      else boundedFrom msg sep (restart sep k c) (i + 1) data := by
  have hpos : 0 < sep.length := by omega
  simp only [boundedFrom, restart, List.getElem?_eq_getElem hk, List.getElem?_eq_getElem hpos,
    Option.some.injEq]

theorem boundedFrom_eq (hk : k < sep.length) :
    boundedFrom msg sep k i data = parseFrom sep k i data := by
  induction data generalizing k i with
  | nil => rfl
  | cons c data ih =>
    have hle := restart_le_succ sep k c
    rw [boundedFrom_cons c hk, parseFrom_cons c hk]
    split
    · rfl
    · rename_i hlen
      exact ih (by omega)

theorem bounded_call (hk : k < sep.length) :
    (bounded msg).call ⟨sep, k⟩ data = library.call ⟨sep, k⟩ data := by
  have hsep : sep.length ≠ 0 := by omega
  have hparse : (bounded msg).parse ⟨sep, k⟩ data = library.parse ⟨sep, k⟩ data := by
    simp only [bounded, boundedParse, library, parse, if_neg hsep, boundedFrom_eq hk,
      parseFrom_eq hk, Nat.zero_add]
    cases hscan : scanFrom sep k data with
    | some n => simp [Nat.one_le_iff_ne_zero, (scanFrom_pos hscan).ne', scanFrom_le_length hscan]
    | none => simp
  unfold TokenizerLibrary.call
  rw [hparse]
  cases library.parse ⟨sep, k⟩ data <;> rfl

theorem boundedFrom_error {e : String} (h : boundedFrom msg sep k i data = .error e) : e = msg := by
  induction data generalizing k i with
  | nil => cases h
  | cons c data ih =>
    simp only [boundedFrom] at h
    split at h
    · rename_i next first _ _
      generalize (if c = next then k + 1 else if c = first then 1 else 0) = k' at h
      split at h
      · cases h
      · exact ih h
    · cases h
      rfl

theorem bounded_asserts {text : String} (h : (bounded msg).Asserts text) :
    text = "size" ∨ text = msg := by
  rcases h with ⟨argument, h⟩ | ⟨tok, data, h⟩
  · simp only [bounded, new] at h
    split at h
    · cases h
      exact .inl rfl
    · cases h
  · simp only [bounded, boundedParse] at h
    split at h
    · rename_i e he
      cases h
      exact .inr (boundedFrom_error he)
    · split at h
      · cases h
        exact .inr rfl
      · cases h

/-- Within a run whose separators are not empty and hold no NUL, `split` keeps to the bounds. -/
def boundedSimulation (msg : String) : (bounded msg).Simulation library where
  forget := id
  Admits argument := argument ≠ [] ∧ 0 ∉ argument
  Fit (tok : Split) := tok.over' < tok.sep.length
  new argument _ := by
    simp only [bounded, library]
    cases new argument <;> rfl
  fresh argument tok hargument hnew := by
    obtain ⟨hne, hnul⟩ := hargument
    have heq := new_eq hne hnul
    cases hnew.symm.trans heq
    exact List.length_pos_iff.mpr hne
  call tok buf hfit _ := by
    obtain ⟨sep, k⟩ := tok
    rw [bounded_call hfit]
    show library.call ⟨sep, k⟩ buf = (library.call ⟨sep, k⟩ buf).map (Prod.map id id)
    cases library.call ⟨sep, k⟩ buf <;> rfl
  goes tok buf n tok' hfit _ hcall := by
    obtain ⟨sep, k⟩ := tok
    rw [bounded_call hfit, call_eq hfit] at hcall
    cases hscan : scanFrom sep k buf with
    | some n =>
      rw [hscan] at hcall
      cases hcall
    | none =>
      rw [hscan] at hcall
      cases hcall
      exact foldl_restart_lt hfit hscan
  what _ := rfl

end Split

def BrokerImpl.assertions : List String :=
  ["id < solutions_.size()", "Begin was already called!", "Begin was not called!",
    "sol.tokenizer", "Unexpected event.", "Invalid configuration."]

/-- Whatever aborts, it is an assertion of the broker or of the library. -/
def Accounted (lib : TokenizerLibrary) (failure : Failure) : Prop :=
  ∀ msg, failure = .abort msg → msg ∈ BrokerImpl.assertions ∨ lib.Asserts msg

namespace Solution

def accounting (lib : TokenizerLibrary) : Contract Event (Solution lib) Failure where
  invariant _ := True
  allowed _ := True
  fatal _ := False
  error := Accounted lib

theorem accounted_own {msg : String} (h : msg ∈ BrokerImpl.assertions) :
    Accounted lib (.abort msg) := by
  intro msg' heq
  cases heq
  exact .inl h

theorem accounted_library {msg : String} (h : lib.Asserts msg) : Accounted lib (.abort msg) := by
  intro msg' heq
  cases heq
  exact .inr h

theorem accounting_serving (lib : TokenizerLibrary) : Serving (accounting lib) where
  deregisters _ _ := trivial
  writes _ _ _ _ := trivial
  reads _ _ _ := trivial
  drained _ _ _ := trivial
  absorbed _ _ _ _ _ := trivial
  chokes _ _ _ _ _ msg h := by
    cases h with
    | absent => exact accounted_own (by simp [BrokerImpl.assertions])
    | failed _ hcall => exact accounted_library (TokenizerLibrary.asserts_of_call hcall)
  unexpected := accounted_own (by simp [BrokerImpl.assertions])
  throws _ _ h := by cases h
  quiet _ _ := trivial
  uncalled _ _ _ := accounted_own (by simp [BrokerImpl.assertions])
  indeterminate _ := trivial
  news _ _ := trivial
  kills _ _ _ _ := trivial
  protects _ _ := .inl (accounted_own (by simp [BrokerImpl.assertions]))
  twice _ _ _ := accounted_own (by simp [BrokerImpl.assertions])
  refuses argument _ hnew := accounted_library (.inl ⟨argument, hnew⟩)
  opened _ _ _ _ _ _ := trivial
  begun _ _ _ _ _ _ := trivial
  sent _ _ _ := trivial
  discarded _ _ := trivial
  dropped _ _ := trivial
  closed _ _ := trivial

theorem Serving.meets_work {C : Contract Event (Solution lib) Failure} (hC : Serving C)
    (b : BrokerImpl lib) (c : BrokerImpl.Command) : (b.work c).Meets C := by
  cases c with
  | begin₁ | begin₂ | begin₃ => exact (hC.meets_begin _ _).bind (fun _ ↦ meets_pure _)
  | send => exact (hC.meets_send _).bind (fun _ ↦ meets_pure _)
  | end' => exact (hC.meets_end _).bind (fun _ ↦ meets_pure _)
  | terminate => exact hC.meets_terminate.bind (fun _ ↦ meets_pure _)

end Solution

namespace BrokerImpl

variable {b b' : BrokerImpl lib} {x : Exchange} {h : List Exchange} {options : Options}

theorem serves_accounted (hx : Serves b x b') {failure : Failure}
    (ho : x.outcome = .raised failure) : Accounted lib failure := by
  rcases serves_cases hx with ⟨sol, sol', -, hwork, -⟩ | ⟨-, -, -, hout⟩
  · have hmeets := (Solution.accounting_serving lib).meets_work b x.command
    obtain herror | ⟨_, _, hfatal⟩ := (hmeets sol trivial _ _ _ hwork).2.2 failure ho
    · exact herror
    · exact hfatal.elim
  · rw [hout] at ho
    cases ho
    exact Solution.accounted_own (by simp [assertions])

/-- The exchanges `h` can be had with the library `lib`, from what the constructor leaves. -/
def Runs (lib : TokenizerLibrary) (options : Options) (h : List Exchange) : Prop :=
  ∃ b, Path Serves (ready options : BrokerImpl lib) h b

theorem Runs.accounted (hr : Runs lib options h) (hx : x ∈ h) {failure : Failure}
    (ho : x.outcome = .raised failure) : Accounted lib failure := by
  obtain ⟨c, hp⟩ := hr
  generalize (ready options : BrokerImpl lib) = b at hp
  induction hp with
  | nil => simp at hx
  | cons hs hp ih =>
    rcases List.mem_cons.mp hx with rfl | hmem
    · exact serves_accounted hs ho
    · exact ih hmem

def recast (b : BrokerImpl lib) (sim : lib.Simulation lib') : BrokerImpl lib' where
  defaultResourceLimits := b.defaultResourceLimits
  defaultTokenizerArgument := b.defaultTokenizerArgument
  solutions := b.solutions.map (fun sol ↦ sol.recast sim sol.resourceLimits)

def Fits (b : BrokerImpl lib) (sim : lib.Simulation lib') : Prop :=
  ∀ sol ∈ b.solutions, sol.Fits sim

/-- A begin with an argument that the simulation does not admit is not among these commands. -/
def Admitted (b : BrokerImpl lib) (sim : lib.Simulation lib') (x : Exchange) : Prop :=
  ∀ argument limits, b.opens x.command = some (argument, limits) → sim.Admits argument

theorem serves_recast {sim : lib.Simulation lib'} {c : BrokerImpl lib'} (hfit : b.Fits sim)
    (hadmits : b.Admitted sim x) (hx : Serves (b.recast sim) x c) :
    ∃ b', Serves b x b' ∧ c = b'.recast sim ∧ b'.Fits sim ∧ b'.opens = b.opens := by
  obtain ⟨env, henv⟩ := hx
  rw [run_work] at henv
  cases hsol : b.solutions[x.command.id.toNat]? with
  | none =>
    have hsol' : (b.recast sim).solutions[x.command.id.toNat]? = none := by
      simp [recast, hsol]
    rw [run_solution_absent hsol'] at henv
    simp only [Execution.mk.injEq] at henv
    obtain ⟨ho, rfl, htr⟩ := henv
    refine ⟨b, ⟨env, ?_⟩, rfl, hfit, rfl⟩
    rw [run_work, run_solution_absent hsol, ← ho, ← htr]
  | some sol =>
    have hsol' : (b.recast sim).solutions[x.command.id.toNat]? =
        some (sol.recast sim sol.resourceLimits) := by
      simp [recast, hsol]
    rw [run_solution hsol'] at henv
    simp only [Execution.mk.injEq] at henv
    obtain ⟨ho, rfl, htr⟩ := henv
    have hfollows : Follows (Solution.alongside sim 0 Eq) id (b.work x.command)
        ((b.recast sim).work x.command) sol (sol.recast sim sol.resourceLimits) env :=
      follows_work rfl rfl (hfit sol (List.mem_of_getElem? hsol)) hadmits
        (fun start _ ↦ by rw [add_zero])
    obtain ⟨hout, ⟨limits, hlimits, hfit', hstate⟩, htrace⟩ := hfollows
    simp only [Solution.alongside, Solution.later_zero, Solution.event_later_zero, List.map_id,
      Outcome.map_id] at hout hstate htrace
    subst hlimits
    let t := ((b.work x.command).run sol env).state
    refine ⟨{ b with solutions := b.solutions.set x.command.id.toNat t }, ⟨env, ?_⟩, ?_, ?_, ?_⟩
    · rw [run_work, run_solution hsol, ← ho, ← htr, hout, htrace]
    · rw [hstate]
      simp only [recast, List.map_set, t]
    · intro s hs
      rcases List.mem_or_eq_of_mem_set hs with hs | rfl
      · exact hfit s hs
      · exact hfit'
    · funext command
      cases command <;> rfl

theorem run_recast {sim : lib.Simulation lib'} {c : BrokerImpl lib'} (hfit : b.Fits sim)
    (hadmits : ∀ x ∈ h, b.Admitted sim x) (hp : Path Serves (b.recast sim) h c) :
    ∃ b', Path Serves b h b' := by
  induction h generalizing b with
  | nil => exact ⟨b, .nil b⟩
  | cons x h ih =>
    cases hp with
    | cons hx hp =>
      obtain ⟨hx', hrest⟩ := List.forall_mem_cons.mp hadmits
      obtain ⟨b₁, hs, rfl, hfit₁, hopens⟩ := serves_recast hfit hx' hx
      obtain ⟨b', hp'⟩ := ih hfit₁ (fun y hy ↦ by simpa [Admitted, hopens] using hrest y hy) hp
      exact ⟨b', .cons hs hp'⟩

theorem ready_recast (options : Options) (sim : lib.Simulation lib') :
    (ready options : BrokerImpl lib).recast sim = ready options := by
  simp only [recast, ready, List.map_map]
  rfl

theorem ready_fits (options : Options) (sim : lib.Simulation lib') :
    (ready options : BrokerImpl lib).Fits sim := by
  intro sol hsol
  obtain ⟨process, -, rfl⟩ := List.mem_map.mp hsol
  exact Solution.fits_of_none rfl

theorem Runs.simulated (sim : lib.Simulation lib') (hr : Runs lib' options h)
    (hadmits : ∀ x ∈ h, (ready options : BrokerImpl lib).Admitted sim x) : Runs lib options h := by
  obtain ⟨c, hp⟩ := hr
  rw [← ready_recast options sim] at hp
  exact run_recast (ready_fits options sim) hadmits hp

/-- Tokenizers are called in turn: with a library that aborts at a call with nothing, and at a
call after `ACCEPTED` or `FAIL`, the broker has the same exchanges, whatever the text of the
assertion. So `split`, given separators, never fails an assertion and keeps to its bounds, and so
do the counts that it reports. -/
theorem tokenizers_called_in_turn (options : Options) :
    (∀ (lib : TokenizerLibrary) (h : List Exchange), Runs lib options h →
      ∀ msg, Runs (lib.disciplined msg) options h ∧
        ∀ x ∈ h, x.outcome = .raised (.abort msg) → msg ∈ assertions ∨ lib.Asserts msg) ∧
    ∀ h, Runs Split.library options h →
      (∀ x ∈ h, ∀ argument limits,
        (ready options : BrokerImpl Split.library).opens x.command = some (argument, limits) →
          argument ≠ [] ∧ 0 ∉ argument) →
      (∀ x ∈ h, x.outcome ≠ .raised (.abort "tok->over < tok->sep_size") ∧
        x.outcome ≠ .raised (.abort "tok->sep_size")) ∧
      ∀ msg, Runs (Split.bounded msg) options h := by
  refine ⟨fun lib h hr msg ↦ ⟨?_, fun x hx ho ↦ hr.accounted hx ho msg rfl⟩,
    fun h hr hseparators ↦ ?_⟩
  · exact hr.simulated (lib.disciplinedSimulation msg) (fun _ _ _ _ _ ↦ trivial)
  have hbounded (msg : String) : Runs (Split.bounded msg) options h :=
    hr.simulated (Split.boundedSimulation msg) hseparators
  refine ⟨fun x hx ↦ ?_, hbounded⟩
  have hother {text : String} (ho : x.outcome = .raised (.abort text)) :
      text ∈ assertions ∨ text = "size" ∨ text = "out of bounds" :=
    ((hbounded "out of bounds").accounted hx ho text rfl).imp_right Split.bounded_asserts
  constructor
  · intro ho
    simpa [assertions] using hother ho
  · intro ho
    simpa [assertions] using hother ho

def oneLine : List Exchange :=
  ((ready Options.single : BrokerImpl Split.library).replay [(.begin₁ 0, [{}]),
    (.end' 0 false, List.replicate 11
      { epollWait := .ok [{ fd := 5, EPOLLIN := true }], read := .ok [97, 10] })]).1

theorem oneLine_runs : Runs Split.library Options.single oneLine :=
  ⟨_, replay_serves _ _⟩

theorem tokenizers_called_in_turn_line :
    oneLine.map (·.outcome) = [.returned none, .returned (some ⟨.OK, [97, 10]⟩)] ∧
    Runs (Split.library.disciplined "called again") Options.single oneLine ∧
    Runs (Split.bounded "out of bounds") Options.single oneLine := by
  have hmain := tokenizers_called_in_turn Options.single
  refine ⟨by cbv, (hmain.1 _ _ oneLine_runs _).1, (hmain.2 _ oneLine_runs ?_).2 _⟩
  intro x hx argument limits hopens
  have hcommand : x.command ∈ [.begin₁ 0, .end' 0 false] :=
    List.mem_map_of_mem (f := Exchange.command) hx
  have hopened : ∀ c ∈ [Command.begin₁ 0, .end' 0 false],
      (ready Options.single : BrokerImpl Split.library).opens c = some (argument, limits) →
        [10] = argument := by
    simpa [opens, ready, new, Options.single] using fun h _ ↦ h
  rw [← hopened _ hcommand hopens]
  decide

end BrokerImpl

end FlowctlGame
