import FlowctlGame.KillerMain

namespace FlowctlGame

open Interaction Program

namespace KillerImpl

variable {platform : Platform}

inductive Carried (killer : KillerImpl platform) (command : KillerInterface.Command) :
    Killer.Status → List (Event platform) → Prop
  | refused (hcid : killer.rawIdToCgroup command.id ∉ killer.unprotected) :
      Carried killer command .PROTECTED []
  | unattached (hcid : killer.rawIdToCgroup command.id ∈ killer.unprotected) :
      Carried killer command .ERROR [.attach (killer.cgroupOf command.id) false]
  | failed (hcid : killer.rawIdToCgroup command.id ∈ killer.unprotected) :
      Carried killer command .ERROR [.attach (killer.cgroupOf command.id) true,
        .act command.type (killer.cgroupOf command.id) false]
  | done (hcid : killer.rawIdToCgroup command.id ∈ killer.unprotected) :
      Carried killer command .OK [.attach (killer.cgroupOf command.id) true,
        .act command.type (killer.cgroupOf command.id) true]

theorem request_carried (act : Killer.Act) (id : Killer.Id) (killer : KillerImpl platform) :
    (request act id).Ensures killer (fun tr o _ ↦ ∃ status acts,
      Carried killer ⟨act, id⟩ status acts ∧ tr <+: acts ∧
        ∀ status', o = .returned status' → status' = status ∧ tr = acts) := by
  simp only [request, ensures_get_bind]
  split
  · next hcid => exact ensures_pure.mpr ⟨_, _, .refused hcid, List.prefix_refl _, by simp⟩
  · next hcid =>
    rw [not_not] at hcid
    simp only [ensures_ask_bind]
    refine ⟨⟨_, _, .done hcid, List.nil_prefix, fun _ h ↦ by cases h⟩, fun m ↦ ?_⟩
    split
    · next hattached =>
      simp only [ensures_ask_bind, hattached]
      refine ⟨⟨_, _, .done hcid, ⟨[_], rfl⟩, fun _ h ↦ by cases h⟩, fun m' ↦ ?_⟩
      split
      · next hacted =>
        refine ensures_pure.mpr ⟨_, _, .done hcid, ?_, ?_⟩ <;> simp [hacted, cgroupOf]
      · next hacted =>
        refine ensures_pure.mpr ⟨_, _, .failed hcid, ?_, ?_⟩ <;> simp [hacted, cgroupOf]
    · next hattached =>
      refine ensures_pure.mpr ⟨_, _, .unattached hcid, ?_, ?_⟩ <;> simp [hattached, cgroupOf]

theorem serves_carried {killer killer' : KillerImpl platform} {command : KillerInterface.Command}
    {o : Outcome Empty Killer.Status} {acts : List (Event platform)}
    (h : KillerInterface.Serves killer ⟨command, o, acts⟩ killer') : ∃ status acts',
      Carried killer command status acts' ∧ acts <+: acts' ∧
        ∀ status', o = .returned status' → status' = status ∧ acts = acts' := by
  unfold KillerInterface.Serves at h
  rw [KillerInterface.run_eq] at h
  exact request_carried _ _ killer _ _ _ h

end KillerImpl

namespace KillerMain

open KillerStreamInterface

variable {platform : KillerImpl.Platform} {Id : Type} {number : Id → Killer.Id}
  {layouts : Layouts Id} {killer : KillerImpl platform}

def streams (tr : List (Event platform Id)) : List (KillerStreamInterface.Event Id) :=
  tr.filterMap (fun | .stream e => some e | _ => none)

def groups (tr : List (Event platform Id)) : List (KillerImpl.Event platform) :=
  tr.filterMap (fun | .group e => some e | _ => none)

section Projections

variable (past last : List (Event platform Id)) (events : List (KillerStreamInterface.Event Id))
  (acts : List (KillerImpl.Event platform))

@[simp]
theorem streams_append : streams (past ++ last) = streams past ++ streams last :=
  List.filterMap_append

@[simp]
theorem groups_append : groups (past ++ last) = groups past ++ groups last :=
  List.filterMap_append

@[simp]
theorem streams_map_stream : streams (events.map (.stream : _ → Event platform Id)) = events := by
  simp [streams]

@[simp]
theorem streams_map_group : streams (acts.map (.group : _ → Event platform Id)) = [] := by
  simp [streams]

@[simp]
theorem groups_map_stream : groups (events.map (.stream : _ → Event platform Id)) = [] := by
  simp [groups]

@[simp]
theorem groups_map_group : groups (acts.map (.group : _ → Event platform Id)) = acts := by
  simp [groups]

theorem streams_events (x : Round platform) : streams (x.events layouts) =
    reads x.bytes ++ [.write (layouts.status.bytes x.status x.padding) (.ok ())] := by
  rw [Round.events, streams_append, streams_append, streams_map_stream, streams_map_group,
    List.append_nil]
  rfl

theorem groups_events (x : Round platform) : groups (x.events layouts) = x.acts := by
  rw [Round.events, groups_append, groups_append, groups_map_stream, groups_map_group]
  exact List.append_nil _

end Projections

theorem length_records {α : Type} (layout : Layout UInt8 α) (xs : List (α × Bytes)) :
    (xs.flatMap layout.record).length = xs.length * layout.size := by
  induction xs with
  | nil => simp
  | cons x xs ih =>
    rw [List.flatMap_cons, List.length_append, layout.length_record, ih, List.length_cons,
      Nat.succ_mul, Nat.add_comm]

section Channel

variable {rounds : List (Round platform)} {last : List (Event platform Id)}
  {o : Outcome Unistd.Exception Empty}

theorem input_rounds (rounds : List (Round platform)) :
    input (streams (rounds.flatMap (Round.events layouts))) =
      (rounds.flatMap Round.bytes).map some := by
  induction rounds with
  | nil => rfl
  | cons x rounds ih =>
    rw [List.flatMap_cons, streams_append, streams_events, input_append, input_append,
      input_reads, ih, List.flatMap_cons, List.map_append]
    exact congrArg (· ++ _) (List.append_nil _)

theorem output_rounds (rounds : List (Round platform)) :
    (output (streams (rounds.flatMap (Round.events layouts)))).length =
      rounds.length * layouts.status.size := by
  induction rounds with
  | nil => simp [streams, output]
  | cons x rounds ih =>
    rw [List.flatMap_cons, streams_append, streams_events, output_append, output_append,
      (reads_spec x.bytes).2.1, output_write, List.nil_append, List.length_append,
      layouts.status.length_bytes, ih, List.length_cons, Nat.succ_mul, Nat.add_comm]

theorem groups_rounds (rounds : List (Round platform)) :
    groups (rounds.flatMap (Round.events layouts)) = rounds.flatMap Round.acts := by
  induction rounds with
  | nil => rfl
  | cons x rounds ih =>
    rw [List.flatMap_cons, groups_append, groups_events, ih, List.flatMap_cons]

theorem Stands.output_nil (h : Stands number layouts killer last o) :
    output (streams last) = [] := by
  cases h with
  | receiving bytes => rw [streams_map_stream, (reads_spec bytes).2.1]
  | ended bytes => rw [streams_map_stream, output_ended]
  | acting bytes =>
    rw [streams_append, streams_map_stream, streams_map_group, List.append_nil,
      (reads_spec bytes).2.1]
  | unwritable bytes =>
    rw [streams_append, streams_append, streams_map_stream, streams_map_group, List.append_nil,
      output_append, (reads_spec bytes).2.1]
    rfl

theorem record_read {bytes : Bytes} {rest : List (Option UInt8)}
    {records : List (Command Id × Bytes)} (hlen : bytes.length = layouts.command.size)
    (hread : bytes.map some ++ rest <+: (records.flatMap layouts.command.record).map some) :
    ∃ y records', records = y :: records' ∧
      decoded number layouts bytes = ⟨y.1.type, number y.1.id⟩ ∧
        rest <+: (records'.flatMap layouts.command.record).map some := by
  have hpos := layouts.command.size_pos
  cases records with
  | nil =>
    have hle := hread.length_le
    rw [List.length_append, List.length_map, hlen, List.flatMap_nil, List.map_nil,
      List.length_nil] at hle
    omega
  | cons y records =>
    rw [List.flatMap_cons, List.map_append] at hread
    obtain ⟨more, hmore⟩ := hread
    rw [List.append_assoc] at hmore
    have hsame : (bytes.map some).length = ((layouts.command.record y).map some).length := by
      rw [List.length_map, List.length_map, hlen, layouts.command.length_record]
    obtain ⟨hbytes, hmore⟩ := List.append_inj hmore hsame
    refine ⟨y, records, rfl, ?_, more, hmore⟩
    rw [List.map_injective_iff.mpr (Option.some_injective _) hbytes, decoded,
      layouts.command.value_record]

theorem rounds_records {records : List (Command Id × Bytes)}
    (hserved : ∀ x ∈ rounds, Served number layouts killer x) {rest : List (Option UInt8)}
    (hread : (rounds.flatMap Round.bytes).map some ++ rest <+:
      (records.flatMap layouts.command.record).map some) :
    ∃ first more, records = first ++ more ∧
      List.Forall₂ (fun y x ↦ decoded number layouts x.bytes = ⟨y.1.type, number y.1.id⟩)
        first rounds ∧ rest <+: (more.flatMap layouts.command.record).map some := by
  induction rounds generalizing records with
  | nil => exact ⟨[], records, rfl, .nil, hread⟩
  | cons x rounds ih =>
    obtain ⟨hx, hserved⟩ := List.forall_mem_cons.mp hserved
    rw [List.flatMap_cons, List.map_append, List.append_assoc] at hread
    obtain ⟨y, records, rfl, hdecoded, hread⟩ := record_read hx.length hread
    obtain ⟨first, more, rfl, hfirst, hrest⟩ := ih hserved hread
    exact ⟨y :: first, more, rfl, .cons hdecoded hfirst, hrest⟩

theorem rounds_carried {records : List (Command Id × Bytes)}
    (hserved : ∀ x ∈ rounds, Served number layouts killer x)
    (h : List.Forall₂ (fun y x ↦ decoded number layouts x.bytes = ⟨y.1.type, number y.1.id⟩)
      records rounds) :
    List.Forall₂ (fun y x ↦ KillerImpl.Carried killer ⟨y.1.type, number y.1.id⟩ x.status x.acts)
      records rounds := by
  induction h with
  | nil => exact .nil
  | @cons y x records rounds hdecoded _ ih =>
    obtain ⟨hx, hserved⟩ := List.forall_mem_cons.mp hserved
    obtain ⟨status, acts, hcarried, -, hreturned⟩ := KillerImpl.serves_carried hx.serves
    obtain ⟨rfl, rfl⟩ := hreturned _ rfl
    exact .cons (hdecoded ▸ hcarried) (ih hserved)

theorem length_rounds (hserved : ∀ x ∈ rounds, Served number layouts killer x) :
    (rounds.flatMap Round.bytes).length = layouts.command.size * rounds.length := by
  induction rounds with
  | nil => rfl
  | cons x rounds ih =>
    obtain ⟨hx, hserved⟩ := List.forall_mem_cons.mp hserved
    rw [List.flatMap_cons, List.length_append, ih hserved, hx.length, List.length_cons,
      Nat.mul_succ, Nat.add_comm]

/-- What the round that is not complete has read and done: bytes of the next request, and
before the request is there nothing else. -/
theorem Stands.cases (h : Stands number layouts killer last o) :
    ∃ bytes n, input (streams last) = bytes.map some ++ List.replicate n none ∧
      (groups last = [] ∨ bytes.length = layouts.command.size ∧
        ∃ status acts, KillerImpl.Carried killer (decoded number layouts bytes) status acts ∧
          groups last <+: acts) ∧
        (n ≠ 0 → o = .raised .endOfFileError ∧ groups last = [] ∧
          bytes.length < layouts.command.size) ∧
          ∀ e, o = .raised e → e = .endOfFileError ∧ n ≠ 0 ∨
            ∃ errno data, e = .systemError "write" errno ∧
              .write data (.error errno) ∈ streams last := by
  cases h with
  | receiving bytes =>
    refine ⟨bytes, 0, ?_, .inl (groups_map_stream _), fun h ↦ absurd rfl h, nofun⟩
    rw [streams_map_stream, input_reads]
    exact (List.append_nil _).symm
  | ended bytes hlen =>
    refine ⟨bytes, 1, ?_, .inl (groups_map_stream _), fun _ ↦ ⟨rfl, groups_map_stream _, hlen⟩,
      fun e he ↦ ?_⟩
    · rw [streams_map_stream, input_ended]
      rfl
    · cases he
      exact .inl ⟨rfl, Nat.one_ne_zero⟩
  | @acting bytes hlen acts _ hserves =>
    obtain ⟨status, acts', hcarried, hpart, -⟩ := KillerImpl.serves_carried hserves
    have hgroups :
        groups ((reads bytes).map .stream ++ acts.map (.group : _ → Event platform Id)) = acts := by
      rw [groups_append, groups_map_stream, groups_map_group, List.nil_append]
    refine ⟨bytes, 0, ?_, .inr ⟨hlen, status, acts', hcarried, by rwa [hgroups]⟩,
      fun h ↦ absurd rfl h, nofun⟩
    rw [streams_append, streams_map_stream, streams_map_group, input_append, input_reads]
    rfl
  | @unwritable bytes hlen acts _ data errno hserves =>
    obtain ⟨status, acts', hcarried, hpart, -⟩ := KillerImpl.serves_carried hserves
    have hgroups (e : KillerStreamInterface.Event Id) :
        groups ((reads bytes).map .stream ++ acts.map .group ++ [.stream e]) = acts := by
      rw [groups_append, groups_append, groups_map_stream, groups_map_group]
      exact List.append_nil _
    refine ⟨bytes, 0, ?_, .inr ⟨hlen, status, acts', hcarried, by rwa [hgroups]⟩,
      fun h ↦ absurd rfl h, fun e he ↦ ?_⟩
    · rw [streams_append, streams_append, streams_map_stream, streams_map_group, List.append_nil,
        input_append, input_reads]
      rfl
    · cases he
      refine .inr ⟨errno, data, rfl, ?_⟩
      rw [streams_append]
      exact List.mem_append_right _ List.mem_cons_self

theorem replies_rounds (rounds : List (Round platform)) :
    output (streams (rounds.flatMap (Round.events layouts))) =
      rounds.flatMap (fun x ↦ layouts.status.bytes x.status x.padding) := by
  induction rounds with
  | nil => rfl
  | cons x rounds ih =>
    rw [List.flatMap_cons, streams_append, streams_events, output_append, output_append,
      (reads_spec x.bytes).2.1, output_write, List.nil_append, ih, List.flatMap_cons]

end Channel

open BrokerTextInterface (Offers)

/-- The killer to which `sent` has been sent, a stream of requests that may break off anywhere:
each whole request that it has read has been carried out and answered with the status of that,
in order, and of the next one a part may have been done. The end of the stream ends it, and so
does a reply that cannot be written. -/
structure Truthful (number : Id → Killer.Id) (layouts : Layouts Id) (killer : KillerImpl platform)
    (requests : List (Command Id × Bytes)) (sent : Bytes) (tr : List (Event platform Id))
    (o : Outcome Empty ℕ) (answered : List (Round platform))
    (part : List (KillerImpl.Event platform)) : Prop where
  carried : List.Forall₂ (fun request x ↦ KillerImpl.Carried killer
    ⟨request.1.type, number request.1.id⟩ x.status x.acts) (requests.take answered.length) answered
  replies : output (streams tr) =
    answered.flatMap (fun x ↦ layouts.status.bytes x.status x.padding)
  acts : groups tr = answered.flatMap Round.acts ++ part
  underway : part = [] ∨ ∃ request ∈ requests[answered.length]?, ∃ status acts,
    KillerImpl.Carried killer ⟨request.1.type, number request.1.id⟩ status acts ∧ part <+: acts
  ended : none ∈ input (streams tr) → o = .returned 0 ∧ part = [] ∧
    answered.length = sent.length / layouts.command.size
  exit : ∀ n, o = .returned n → n = 0 ∧ none ∈ input (streams tr) ∨
    n = 1 ∧ ∃ data errno, .write data (.error errno) ∈ streams tr

theorem process_truthful {requests : List (Command Id × Bytes)} {sent : Bytes}
    {tr : List (Event platform Id)} {o : Outcome Empty ℕ} {killer' : KillerImpl platform}
    (hsent : sent <+: requests.flatMap layouts.command.record)
    (h : (main number layouts).Executes killer tr o killer')
    (hread : Offers sent true (input (streams tr))) :
    ∃ answered part, Truthful number layouts killer requests sent tr o answered part := by
  obtain ⟨-, f, rounds, last, ⟨hserved, hstands, rfl⟩, rfl⟩ := main_spec killer tr o killer' h
  obtain ⟨bytes, n, hinput, hpart, hended, hraised⟩ := hstands.cases
  rw [streams_append, input_append, input_rounds, hinput, ← List.append_assoc,
    ← List.map_append] at hread
  have hwhole : n ≠ 0 → sent = rounds.flatMap Round.bytes ++ bytes := by
    intro hn
    obtain ⟨k, rfl⟩ := Nat.exists_eq_succ_of_ne_zero hn
    rw [List.replicate_succ, ← List.singleton_append, ← List.append_assoc] at hread
    exact (offers_end (hread.before)).1
  obtain ⟨unread, hunread⟩ := offers_bytes (hread.before)
  have hrecords : (rounds.flatMap Round.bytes).map some ++ bytes.map some <+:
      (requests.flatMap layouts.command.record).map some := by
    rw [← List.map_append]
    exact ((List.prefix_append _ unread).trans (hunread ▸ hsent)).map some
  obtain ⟨first, more, rfl, hfirst, hrest⟩ := rounds_records hserved hrecords
  have hlength : first.length = rounds.length := hfirst.length_eq
  refine ⟨rounds, groups last, ?_, ?_, ?_, ?_, ?_, ?_⟩
  · rw [← hlength, List.take_left]
    exact rounds_carried hserved hfirst
  · rw [streams_append, output_append, replies_rounds, hstands.output_nil, List.append_nil]
  · rw [groups_append, groups_rounds]
  · rcases hpart with hnil | ⟨hlen, status, acts, hcarried, hpart⟩
    · exact .inl hnil
    · rw [← List.append_nil (bytes.map some)] at hrest
      obtain ⟨y, more, rfl, hdecoded, -⟩ := record_read hlen hrest
      rw [← hlength, List.getElem?_append_right le_rfl, Nat.sub_self]
      exact .inr ⟨y, rfl, status, acts, hdecoded ▸ hcarried, hpart⟩
  · intro hnone
    have hn : n ≠ 0 := by
      rintro rfl
      simp [streams_append, input_append, input_rounds, hinput] at hnone
    obtain ⟨rfl, hnil, hshort⟩ := hended hn
    refine ⟨rfl, hnil, ?_⟩
    rw [hwhole hn, List.length_append, length_rounds hserved,
      Nat.mul_add_div layouts.command.size_pos, Nat.div_eq_of_lt hshort, Nat.add_zero]
  · intro status hstatus
    cases f with
    | returned never => nomatch never
    | pending => cases hstatus
    | raised e =>
      cases hstatus
      rcases hraised e rfl with ⟨rfl, hn⟩ | ⟨errno, data, rfl, hmem⟩
      · refine .inl ⟨rfl, ?_⟩
        rw [streams_append, input_append, hinput]
        simp [hn]
      · refine .inr ⟨rfl, data, errno, ?_⟩
        rw [streams_append]
        exact List.mem_append_right _ hmem

/-- Of two requests the second is refused, and the stream ends in a third one. -/
def cutSession : Execution (Event .paths UInt8) (KillerImpl .paths) Empty ℕ :=
  (main (fun x ↦ (x.toNat : ℤ)) shortLayouts).run
    (KillerImpl.new { unprotected := {10} } [[103]])
    ([0, 0, 10].map typed ++ quiet 3 ++ [1, 0, 20].map typed ++ quiet 1 ++ [2].map typed ++ quiet 1)
where
  typed (byte : UInt8) : Answer := { stream := { byte := some byte } }
  quiet (n : ℕ) : List Answer := List.replicate n {}

theorem process_truthful_cut : ∃ answered part, Truthful (fun x ↦ (x.toNat : ℤ)) shortLayouts
    (KillerImpl.new { unprotected := {10} } [[103]])
    [(⟨.FREEZE, 10⟩, []), (⟨.UNFREEZE, 20⟩, []), (⟨.TERMINATE, 10⟩, [])] [0, 0, 10, 1, 0, 20, 2]
    cutSession.trace cutSession.outcome answered part := by
  refine process_truthful (by decide) (executes_run (main _ shortLayouts) _ _) ⟨1, ?_⟩
  decide +kernel

end KillerMain

end FlowctlGame
