import FlowctlGame.Pipes
import FlowctlGame.Input
import FlowctlGame.TokenStream

namespace FlowctlGame

open Interaction Unistd Broker

variable {lib : TokenizerLibrary} {W : Worker} {capacities : Capacities} {process : Process}
  {side side' : Side W} {steps : List (Event ⊕ Act)} {e : Event} {act : Act}

namespace Worker

/-- What the program writes, beginning in `s`, is as far as it goes what `F` says of what it
has read. -/
def Computes (W : Worker) (s : W.State) (F : Bytes → Bytes) : Prop :=
  ∀ acts s', Path W.does s acts s' → acts.flatMap Act.given <+: F (acts.flatMap Act.taken)

theorem path_echo {s s' : Option UInt8} {acts : List Act} (h : Path echo.does s acts s') :
    s.toList ++ acts.flatMap Act.taken = acts.flatMap Act.given ++ s'.toList := by
  induction h with
  | nil => simp
  | @cons s t u act acts hs h ih =>
    rw [List.flatMap_cons, List.flatMap_cons, List.append_assoc, ← ih]
    cases s with
    | none =>
      cases act with
      | take c =>
        cases (show t = some c from hs)
        rfl
      | give c => exact hs.elim
      | think => exact hs.elim
    | some c =>
      cases act with
      | give d =>
        obtain ⟨rfl, rfl⟩ := (show d = c ∧ t = none from hs)
        rfl
      | take d => exact hs.elim
      | think => exact hs.elim

theorem computes_echo : echo.Computes none id :=
  fun _ s' h ↦ ⟨Option.toList s', (path_echo h).symm⟩

end Worker

namespace SplitChar

/-- The pieces of `data` that end with `c`; an unfinished one is left out. -/
def pieces (c : UInt8) : Bytes → List Bytes
  | [] => []
  | d :: data =>
    if d = c then [d] :: pieces c data
    else
      match pieces c data with
      | [] => []
      | piece :: more => (d :: piece) :: more

theorem pieces_shortest {c : UInt8} {data : Bytes} {n : ℕ} (hn : 0 < n) (hle : n ≤ data.length)
    (hlast : (data.take n).getLast? = some c)
    (hmin : ∀ m, 0 < m → m < n → (data.take m).getLast? ≠ some c) :
    pieces c data = data.take n :: pieces c (data.drop n) := by
  induction data generalizing n with
  | nil => exact absurd hle (Nat.not_le.mpr hn)
  | cons d data ih =>
    obtain ⟨n, rfl⟩ := Nat.exists_eq_add_one_of_ne_zero hn.ne'
    rw [List.length_cons] at hle
    rw [List.take_succ_cons, List.drop_succ_cons]
    cases n with
    | zero =>
      have hd : d = c := by simpa using hlast
      simp [pieces, hd]
    | succ n =>
      have hd : d ≠ c := by simpa using hmin 1 Nat.one_pos (by omega)
      have hne : data ≠ [] := List.ne_nil_of_length_pos (by omega)
      have hcons (m : ℕ) :
          ((d :: data).take (m + 1 + 1)).getLast? = (data.take (m + 1)).getLast? := by
        obtain ⟨e, data, rfl⟩ := List.exists_cons_of_ne_nil hne
        rw [List.take_succ_cons, List.take_succ_cons, List.getLast?_cons_cons]
      rw [hcons] at hlast
      have hrest := ih (Nat.succ_pos n) (by omega) hlast (fun m hm hmn ↦ ?_)
      · rw [pieces, if_neg hd, hrest]
      · obtain ⟨m, rfl⟩ := Nat.exists_eq_add_one_of_ne_zero hm.ne'
        rw [← hcons]
        exact hmin (m + 1 + 1) (by omega) (by omega)

theorem cuts_pieces {κ : Type} {c : UInt8} {data : Bytes} {p q : ℕ}
    {cuts : List (κ × Option Bytes)}
    (h : Path (Stream.Cut (fun _ piece ↦ piece.getLast? = some c) (.ofList data)) p cuts q)
    (hall : ∀ cut ∈ cuts, cut.2 ≠ none) :
    cuts.map Prod.snd ++ (pieces c (data.drop q)).map some =
      (pieces c (data.drop p)).map some := by
  induction h with
  | nil => rfl
  | @cons p t u cut cuts hcut h ih =>
    obtain ⟨hsome, hrest⟩ := List.forall_mem_cons.mp hall
    cases hcut with
    | @token k _ n hshort =>
      obtain ⟨hn, hlen, hlast, hmin⟩ := hshort
      have hle := Stream.le_length_ofList.mp hlen
      rw [Stream.slice_ofList hle] at hlast ⊢
      have hpieces := pieces_shortest hn (by rw [List.length_drop]; omega) hlast (fun m hm hmn ↦ ?_)
      · rw [hpieces, List.drop_drop, List.map_cons, List.map_cons, List.cons_append, ih hrest]
      · rw [← Stream.slice_ofList (by omega)]
        exact hmin m hm hmn
    | eof => exact absurd rfl hsome

end SplitChar

namespace Side

theorem path_does (h : Path (Step capacities process) side steps side') :
    Path W.does side.state (moves steps) side'.state := by
  induction h with
  | nil => exact .nil _
  | @cons s t u step steps hs h ih =>
    cases step with
    | inl e =>
      rw [hs.state_call] at ih
      exact ih
    | inr act => exact .cons hs.does ih

theorem Step.stdin_move (h : Step capacities process side (.inr act) side') :
    act.taken ++ side'.stdin = side.stdin := by
  cases h with
  | take hdoes hstdin => exact hstdin.symm
  | give => rfl
  | think => rfl

theorem Step.stdin_call (h : Step capacities process side (.inl e) side') :
    side'.stdin = side.stdin ++ e.written process.inFd := by
  cases h with
  | wrote => simp [Event.written]
  | elsewhere he =>
    cases e with
    | write fd data r =>
      have hne : fd ≠ process.inFd := he
      cases r <;> simp [Event.written, hne]
    | _ => exact (List.append_nil _).symm
  | _ => exact (List.append_nil _).symm

theorem path_stdin (h : Path (Step capacities process) side steps side') :
    (moves steps).flatMap Act.taken ++ side'.stdin =
      side.stdin ++ written process.inFd (calls steps) := by
  induction h with
  | nil => simp [calls, moves, written]
  | @cons s t u step steps hs h ih =>
    cases step with
    | inl e =>
      rw [moves_cons_call, ih, hs.stdin_call, calls_cons_call, List.append_assoc]
      rfl
    | inr act =>
      rw [moves_cons_move, List.flatMap_cons, List.append_assoc, ih, calls_cons_move,
        ← hs.stdin_move, List.append_assoc]

theorem path_mute (h : Path (Step capacities process) side steps side')
    (hmute : ¬ W.speaks side.state) : (moves steps).flatMap Act.given = [] := by
  induction h with
  | nil => rfl
  | @cons s t u step steps hs h ih =>
    cases step with
    | inl e =>
      rw [← hs.state_call] at hmute
      exact ih hmute
    | inr act =>
      have hrest := ih (fun hspeaks ↦ hmute (W.speaks_before _ _ _ hs.does hspeaks))
      rw [moves_cons_move, List.flatMap_cons, hrest, List.append_nil]
      cases act with
      | give c => exact absurd (W.give_speaks _ _ _ hs.does) hmute
      | take c => rfl
      | think => rfl

theorem Step.stdout_move (h : Step capacities process side (.inr act) side') :
    side'.stdout = side.stdout ++ act.given := by
  cases h with
  | give => rfl
  | take => exact (List.append_nil _).symm
  | think => exact (List.append_nil _).symm

theorem Step.delivery (h : Step capacities process side (.inl e) side') (heard : Bytes)
    {rest : Bytes} (hmute : ¬ W.speaks side.state → rest = []) :
    ∃ heard', heard' ++ side'.stdout = heard ++ side.stdout ∧
      Delivery (.ofList (heard ++ side.stdout ++ rest)) process.outFd heard.length e
        heard'.length := by
  have hend (hspeaks : ¬ W.speaks side.state) (hempty : side.stdout = []) :
      (Stream.ofList (heard ++ side.stdout ++ rest)).length = heard.length := by
    simp [Stream.length_ofList, hmute hspeaks, hempty]
  have hother (hout : side'.stdout = side.stdout) (he : e.informs process.outFd = false) :
      ∃ heard', heard' ++ side'.stdout = heard ++ side.stdout ∧
        Delivery (.ofList (heard ++ side.stdout ++ rest)) process.outFd heard.length e
          heard'.length := ⟨heard, by rw [hout], .other he⟩
  cases h with
  | @readChunk n hn hle =>
    refine ⟨heard ++ side.stdout.take n, ?_, ?_⟩
    · rw [List.append_assoc, List.take_append_drop]
    · rw [List.length_append, List.length_take, Nat.min_eq_left hle]
      refine .chunk hn (Stream.le_length_ofList.mpr ?_) ?_
      · simp only [List.length_append]
        omega
      · rw [Stream.slice_ofList (by simp only [List.length_append]; omega), List.append_assoc,
          List.drop_left, List.take_append_of_le_length hle]
  | readNothing => exact ⟨heard, rfl, .failed⟩
  | readEnd hspeaks hempty => exact ⟨heard, rfl, .eof (hend hspeaks hempty)⟩
  | waited hreports =>
    refine ⟨heard, rfl, .waited ?_⟩
    rintro _ ⟨⟩ ev hmem hfd hin
    obtain ⟨hdata, hup⟩ := hreports.stdout ev hmem hfd
    refine hend (hup hin) (by_contra (fun hne ↦ ?_))
    rw [hdata.mpr hne] at hin
    cases hin
  | waitFailed =>
    refine ⟨heard, rfl, .waited ?_⟩
    rintro _ ⟨⟩
  | elsewhere helse =>
    refine hother rfl ?_
    cases e with
    | read fd r =>
      have hne : fd ≠ process.outFd := helse
      simpa [Event.informs] using hne
    | epollWait r => exact helse.elim
    | _ => rfl
  | _ => exact hother rfl rfl

theorem path_delivery (h : Path (Step capacities process) side steps side') (heard : Bytes) :
    ∃ p, Path (Delivery (.ofList (heard ++ side.stdout ++ (moves steps).flatMap Act.given))
      process.outFd) heard.length (calls steps) p := by
  induction h generalizing heard with
  | nil => exact ⟨heard.length, .nil _⟩
  | @cons s t u step steps hs h ih =>
    cases step with
    | inl e =>
      obtain ⟨heard', heq, hd⟩ := hs.delivery heard (fun hmute ↦ path_mute h (by
        rwa [hs.state_call]))
      obtain ⟨p, hp⟩ := ih heard'
      rw [heq] at hp
      exact ⟨p, .cons hd hp⟩
    | inr act =>
      obtain ⟨p, hp⟩ := ih heard
      refine ⟨p, ?_⟩
      rw [moves_cons_move, List.flatMap_cons, calls_cons_move]
      rw [hs.stdout_move] at hp
      simpa only [List.append_assoc] using hp

end Side

namespace BrokerImpl

variable {options : Options} {startup : List Event} {b b' : BrokerImpl lib} {h : List Exchange}
  {id : SolutionId} {accepts : TokenizerArgument → Bytes → Prop} {s : W.State}
  {F : Bytes → Bytes}

theorem Startup.silent {processes : List Process} (h : Startup processes startup) (fd : Fd) :
    (∀ r, .read fd r ∉ startup) ∧ ∀ data r, .write fd data r ∉ startup := by
  induction h with
  | nil => simp
  | cons _ ih => simpa [nonblocking] using ih

theorem conversation_cuts (hw : options.WellFormed) (h₀ : Started options startup b)
    (hp : Path Answers b h b') (hid : options.solutions[id.toNat]? = some process)
    (hfav : ∀ x ∈ h, b.Favours id process accepts x)
    (hworld : Path (Side.Step capacities process) { state := s } steps side)
    (hcalls : Interaction.calls steps = startup ++ h.flatMap (·.trace)) (hF : W.Computes s F)
    (hmono : ∀ data more, F data <+: F (data ++ more)) :
    ∃ cuts said q, b.iterations id none h = cuts.map (fun cut ↦ (cut.1, report cut.2)) ∧
      said <+: F (inbox id process h).kept ∧
        Path (Stream.Cut accepts (.ofList said)) 0 cuts q := by
  obtain ⟨hstartup, rfl⟩ := started_spec h₀
  have hstdin := Side.path_stdin hworld
  obtain ⟨p, hdelivery⟩ := Side.path_delivery hworld []
  rw [hcalls, written_append,
    (drain_foreign .empty (hstartup.silent process.inFd).2).2, List.nil_append] at hstdin
  rw [hcalls] at hdelivery
  obtain ⟨_, hsilent, hdelivery⟩ := hdelivery.split
  rw [delivery_unread hsilent (hstartup.silent process.outFd).1] at hdelivery
  obtain ⟨cuts, q, hcuts, hiterations⟩ := iterations_ready hw hp hid hfav hdelivery
  obtain ⟨-, -, -, hout, -⟩ := inbox_run (f := .empty)
    (fun j other hj hne ↦ (hw.disjoint hid hj hne.symm).1) hp (ready_processes options)
    (ready_solution hid) rfl rfl
  have hkept : (inbox id process h).kept =
      (moves steps).flatMap Act.taken ++ (side.stdin ++ (inbox id process h).queue) := by
    rw [Fifo.kept_eq, ← List.append_assoc, hstdin]
    exact congrArg (· ++ _) hout
  refine ⟨cuts, (moves steps).flatMap Act.given, q, hiterations, ?_, hcuts⟩
  rw [hkept]
  exact (hF _ _ (Side.path_does hworld)).trans (hmono _ _)

/-- What the judge receives is what the program says of what the judge sent, token by token. -/
theorem conversation (hw : options.WellFormed) (h₀ : Started options startup b)
    (hp : Path Answers b h b') (hid : options.solutions[id.toNat]? = some process)
    (hfav : ∀ x ∈ h, b.Favours id process accepts x)
    (hworld : Path (Side.Step capacities process) { state := s } steps side)
    (hcalls : Interaction.calls steps = startup ++ h.flatMap (·.trace)) (hF : W.Computes s F)
    (hmono : ∀ data more, F data <+: F (data ++ more)) :
    ∃ cuts, b.iterations id none h = cuts.map (fun cut ↦ (cut.1, report cut.2)) ∧
      (cuts.filterMap Prod.snd).flatten <+: F (inbox id process h).kept ∧
        ((∀ cut ∈ cuts, cut.2 ≠ none) →
          ∃ q, Path (Stream.Cut accepts (.ofList (F (inbox id process h).kept))) 0 cuts q) := by
  obtain ⟨cuts, said, q, hiterations, hsaid, hcuts⟩ :=
    conversation_cuts hw h₀ hp hid hfav hworld hcalls hF hmono
  refine ⟨cuts, hiterations, ?_, fun hall ↦ ⟨q, Stream.cuts_extend hsaid hcuts hall⟩⟩
  exact (Stream.cuts_flatten hcuts (Nat.zero_le _)).trans hsaid

/-- A program that copies its input returns what it was sent line by line: the results are
the first lines of the messages, less what was thrown away of them. -/
theorem echo_lines {b b' : BrokerImpl SplitChar.library} {side : Side Worker.echo}
    {c : UInt8} (hw : options.WellFormed) (h₀ : Started options startup b)
    (hp : Path Answers b h b') (hid : options.solutions[id.toNat]? = some process)
    (hrunning : ∀ x ∈ h, x.command.id = id → ∀ reply, .killer .TERMINATE process.id reply ∉ x.trace)
    (hargument : ∀ x ∈ h, x.command.id = id →
      ∀ argument limits, b.opens x.command = some (argument, limits) → argument = [c])
    (hworld : Path (Side.Step capacities process) ({ state := none } : Side Worker.echo) steps side)
    (hcalls : Interaction.calls steps = startup ++ h.flatMap (·.trace))
    (hok : ∀ x ∈ b.iterations id none h, x.2.status = .OK) :
    (b.iterations id none h).map (·.2.data) <+: SplitChar.pieces c (inbox id process h).kept := by
  have hfav : ∀ x ∈ h, b.Favours id process (fun _ data ↦ data.getLast? = some c) x := by
    refine fun x hx ↦ ⟨hrunning x hx, fun hxid argument limits hopens ↦ ?_⟩
    rw [hargument x hx hxid argument limits hopens]
    exact SplitChar.streaming c
  obtain ⟨cuts, said, q, hiterations, hsaid, hcuts⟩ := conversation_cuts hw h₀ hp hid hfav hworld
    hcalls Worker.computes_echo (fun _ _ ↦ List.prefix_append _ _)
  rw [hiterations] at hok ⊢
  have hall : ∀ cut ∈ cuts, cut.2 ≠ none := by
    intro cut hcut hnone
    have hreported := hok _ (List.mem_map_of_mem hcut)
    rw [hnone] at hreported
    cases hreported
  have hpieces := SplitChar.cuts_pieces (Stream.cuts_extend hsaid hcuts hall) hall
  have hdata : cuts.map Prod.snd =
      ((cuts.map (fun cut ↦ (cut.1, report cut.2))).map (·.2.data)).map some := by
    simp only [List.map_map]
    refine List.map_congr_left (fun cut hcut ↦ ?_)
    obtain ⟨token, htoken⟩ := Option.ne_none_iff_exists'.mp (hall cut hcut)
    simp [htoken, report]
  rw [hdata, ← List.map_append] at hpieces
  exact ⟨_, List.map_injective_iff.mpr (Option.some_injective _) hpieces⟩

/-- A line is sent through pipes that hold two bytes, copied and returned. -/
def copiedRun : List Exchange :=
  ((ready Options.single : BrokerImpl SplitChar.library).replay
    [(.begin₁ 0, [{}]), (.send 0 [97, 10], []), (.end' 0 false,
      [{}, {}, {}, {}, {}, {}, {}, { epollWait := .ok [{ fd := 4, EPOLLOUT := true }] }, {},
        { write := .ok 1 }, {}, {}, { epollWait := .ok [{ fd := 5, EPOLLIN := true }] }, {},
        { read := .ok [97, 10] }, {}])]).1

theorem copiedRun_trace : copiedRun.flatMap (·.trace) =
    [.newTokenizer [10] true, .indeterminate .OK, .killer .UNFREEZE 10 (.ok .OK), .now 0,
      .epollCreate1 (.ok ()), .epollCtlAdd 4 { fd := 4, EPOLLOUT := true } (.ok ()),
      .epollCtlAdd 5 { fd := 5, EPOLLIN := true } (.ok ()), .now 0,
      .epollWait (.ok [{ fd := 4, EPOLLOUT := true }]), .now 0, .write 4 [97, 10] (.ok 2),
      .epollCtlDel 4 (.ok ()), .now 0, .epollWait (.ok [{ fd := 5, EPOLLIN := true }]), .now 0,
      .read 5 (.ok [97, 10]), .killer .FREEZE 10 (.ok .OK)] := rfl

/-- The run in its world, from the start: the solution copies the line between the two waits. -/
def copiedSteps : List (Event ⊕ Act) :=
  ([Event.killer .FREEZE 10 (.ok .OK)] ++ nonblocking 4 0 ++ nonblocking 5 0).map .inl ++
    ((copiedRun.flatMap (·.trace)).take 12).map .inl ++
    [.inr (.take 97), .inr (.give 97), .inr (.take 10), .inr (.give 10)] ++
      ((copiedRun.flatMap (·.trace)).drop 12).map .inl

theorem copiedRun_world : Path (Side.Step ⟨2, 2, Nat.two_pos, Nat.two_pos⟩ ⟨4, 5, 10⟩)
    ({ state := none } : Side Worker.echo) copiedSteps { state := none, registered := {5} } := by
  have hroom : Side.Reports ⟨2, 2, Nat.two_pos, Nat.two_pos⟩ ⟨4, 5, 10⟩
      ({ state := none, registered := {5, 4} } : Side Worker.echo)
        [{ fd := 4, EPOLLOUT := true }] := by
    constructor <;> simp [Worker.echo]
  have hdata : Side.Reports ⟨2, 2, Nat.two_pos, Nat.two_pos⟩ ⟨4, 5, 10⟩
      ({ state := none, stdout := [97, 10], registered := {5} } : Side Worker.echo)
        [{ fd := 5, EPOLLIN := true }] := by
    constructor <;> simp [Worker.echo]
  rw [copiedSteps, copiedRun_trace]
  refine .cons (.elsewhere trivial) <| .cons (.elsewhere trivial) <|
    .cons (.elsewhere trivial) <| .cons (.elsewhere trivial) <| .cons (.elsewhere trivial) <|
    .cons (.elsewhere trivial) <| .cons (.elsewhere trivial) <| .cons (.elsewhere trivial) <|
    .cons (.elsewhere trivial) <| .cons .created <|
      .cons (.added (by decide)) <| .cons (.added (by decide)) <| .cons (.elsewhere trivial) <|
        .cons (.waited hroom) <| .cons (.elsewhere trivial) <|
          .cons (.wrote trivial Nat.two_pos le_rfl le_rfl) <| .cons (.removed (by decide)) <|
            .cons (.take rfl rfl) <| .cons (.give ⟨rfl, rfl⟩ Nat.two_pos) <|
              .cons (.take rfl rfl) <| .cons (.give ⟨rfl, rfl⟩ Nat.one_lt_two) <|
                .cons (.elsewhere trivial) <| .cons (.waited hdata) <| .cons (.elsewhere trivial) <|
                  .cons (.readChunk Nat.two_pos le_rfl) <| .one (.elsewhere trivial)

theorem copiedRun_running {x : Exchange} (hx : x ∈ copiedRun)
    (reply : Except Exception Killer.Status) : .killer .TERMINATE 10 reply ∉ x.trace := by
  intro hmem
  have htrace := List.mem_flatMap.mpr ⟨x, hx, hmem⟩
  rw [copiedRun_trace] at htrace
  simp at htrace

theorem copiedRun_opens {x : Exchange} (hx : x ∈ copiedRun) {argument : TokenizerArgument}
    {limits : ResourceLimits} (hopens : (ready Options.single : BrokerImpl SplitChar.library).opens
      x.command = some (argument, limits)) : argument = [10] := by
  have hcommand : x.command ∈ [.begin₁ 0, .send 0 [97, 10], .end' 0 false] :=
    List.mem_map_of_mem (f := Exchange.command) hx
  have hall : ∀ c ∈ [Command.begin₁ 0, .send 0 [97, 10], .end' 0 false],
      (ready Options.single : BrokerImpl SplitChar.library).opens c = some (argument, limits) →
        argument = [10] := by
    simpa [opens, ready, new, Options.single] using fun h _ ↦ h.symm
  exact hall _ hcommand hopens

theorem conversation_copied : ∃ cuts : List (TokenizerArgument × Option Bytes),
    (ready Options.single : BrokerImpl SplitChar.library).iterations 0 none copiedRun =
        cuts.map (fun cut ↦ (cut.1, report cut.2)) ∧
      (cuts.filterMap Prod.snd).flatten <+: (inbox 0 ⟨4, 5, 10⟩ copiedRun).kept := by
  have hid : Options.single.solutions[(0 : SolutionId).toNat]? = some ⟨4, 5, 10⟩ := rfl
  have hfav : ∀ x ∈ copiedRun, (ready Options.single : BrokerImpl SplitChar.library).Favours 0
      ⟨4, 5, 10⟩ (fun _ data ↦ data.getLast? = some 10) x := by
    refine fun x hx ↦ ⟨fun _ ↦ copiedRun_running hx, fun _ argument limits hopens ↦ ?_⟩
    rw [copiedRun_opens hx hopens]
    exact SplitChar.streaming 10
  obtain ⟨cuts, heq, hprefix, -⟩ := conversation single_wellFormed single_started
    (replay_path _ _ (by decide)) hid hfav copiedRun_world rfl Worker.computes_echo
      (fun _ _ ↦ List.prefix_append _ _)
  exact ⟨cuts, heq, hprefix⟩

end BrokerImpl

end FlowctlGame
