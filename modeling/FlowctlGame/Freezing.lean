import FlowctlGame.KillerService
import FlowctlGame.Supervision

namespace FlowctlGame

open Interaction Program

namespace KillerImpl

variable {platform : Platform} {killer : KillerImpl platform} {group : platform.ControlGroup}
  {act : Killer.Act}

def Event.Done : Event platform → Prop
  | .attach _ done | .act _ _ done => done = true

instance : DecidablePred (@Event.Done platform)
  | .attach _ done | .act _ _ done => inferInstanceAs (Decidable (done = true))

def Event.effect [DecidableEq platform.ControlGroup] (group : platform.ControlGroup) :
    Event platform → Option Killer.Act
  | .act act group' true => if group' = group then some act else none
  | _ => none

def lastAct [DecidableEq platform.ControlGroup] (group : platform.ControlGroup)
    (acts : List (Event platform)) : Option Killer.Act :=
  (acts.filterMap (Event.effect group)).getLast?

theorem lastAct_append [DecidableEq platform.ControlGroup] (group : platform.ControlGroup)
    (acts acts' : List (Event platform)) :
    lastAct group (acts ++ acts') = (lastAct group acts').or (lastAct group acts) := by
  simp [lastAct, List.getLast?_append]

def doing (killer : KillerImpl platform) (command : KillerInterface.Command) :
    List (Event platform) :=
  if killer.rawIdToCgroup command.id ∈ killer.unprotected then
    [.attach (killer.cgroupOf command.id) true,
      .act command.type (killer.cgroupOf command.id) true]
  else
    []

section Carried

variable {command : KillerInterface.Command} {status : Killer.Status} {acts : List (Event platform)}

theorem Carried.doing (h : Carried killer command status acts) (hdone : ∀ e ∈ acts, e.Done) :
    acts = killer.doing command := by
  unfold KillerImpl.doing
  cases h with
  | refused hcid => rw [if_neg hcid]
  | done hcid => rw [if_pos hcid]
  | unattached => cases hdone _ List.mem_cons_self
  | failed => cases hdone _ (List.mem_cons_of_mem _ List.mem_cons_self)

theorem Carried.part (h : Carried killer command status acts) {part : List (Event platform)}
    (hpart : part <+: acts) (hdone : ∀ e ∈ part, e.Done) : part <+: killer.doing command := by
  unfold KillerImpl.doing
  cases h with
  | refused hcid => rwa [if_neg hcid]
  | done hcid => rwa [if_pos hcid]
  | unattached hcid =>
    rcases List.prefix_cons_iff.mp hpart with rfl | ⟨rest, rfl, -⟩
    · exact List.nil_prefix
    · cases hdone _ List.mem_cons_self
  | failed hcid =>
    rw [if_pos hcid]
    rcases List.prefix_cons_iff.mp hpart with rfl | ⟨rest, rfl, hrest⟩
    · exact List.nil_prefix
    · rcases List.prefix_cons_iff.mp hrest with rfl | ⟨rest', rfl, -⟩
      · exact ⟨[_], rfl⟩
      · cases hdone _ (List.mem_cons_of_mem _ List.mem_cons_self)

/-- A request of which not everything is done has changed no group yet. -/
theorem part_cases [DecidableEq platform.ControlGroup] (h : acts <+: killer.doing command) :
    (∀ group, lastAct group acts = none) ∨ acts = killer.doing command := by
  unfold doing at h ⊢
  split at h
  · next hcid =>
    rw [if_pos hcid]
    rcases List.prefix_cons_iff.mp h with rfl | ⟨rest, rfl, hrest⟩
    · exact .inl (fun _ ↦ rfl)
    · rcases List.prefix_cons_iff.mp hrest with rfl | ⟨rest', rfl, hrest'⟩
      · exact .inl (fun _ ↦ rfl)
      · rw [List.prefix_nil.mp hrest']
        exact .inr rfl
  · next hcid =>
    rw [if_neg hcid]
    exact .inr (List.prefix_nil.mp h)

end Carried

def lastOf (id : Killer.Id) (commands : List KillerInterface.Command) : Option Killer.Act :=
  (commands.filterMap (fun command ↦ if command.id = id then some command.type else none)).getLast?

theorem lastOf_snoc_same (commands : List KillerInterface.Command)
    (command : KillerInterface.Command) :
    lastOf command.id (commands ++ [command]) = some command.type := by
  simp [lastOf, List.filterMap_append]

theorem lastOf_snoc_ne {id : Killer.Id} {command : KillerInterface.Command}
    (h : command.id ≠ id) (commands : List KillerInterface.Command) :
    lastOf id (commands ++ [command]) = lastOf id commands := by
  simp [lastOf, List.filterMap_append, h]

theorem lastAct_doing [DecidableEq platform.ControlGroup]
    {commands : List KillerInterface.Command}
    (h : lastAct group (commands.flatMap killer.doing) = some act) :
    ∃ id, killer.cgroupOf id = group ∧ killer.rawIdToCgroup id ∈ killer.unprotected ∧
      lastOf id commands = some act := by
  induction commands using List.reverseRecOn with
  | nil => cases h
  | append_singleton commands command ih =>
    rw [List.flatMap_append, List.flatMap_singleton, lastAct_append] at h
    have hearlier (hlast : lastAct group (commands.flatMap killer.doing) = some act)
        (hne : ∀ id, killer.cgroupOf id = group →
          killer.rawIdToCgroup id ∈ killer.unprotected → command.id ≠ id) :
        ∃ id, killer.cgroupOf id = group ∧ killer.rawIdToCgroup id ∈ killer.unprotected ∧
          lastOf id (commands ++ [command]) = some act := by
      obtain ⟨id, hgroup, hid, hlast⟩ := ih hlast
      exact ⟨id, hgroup, hid, by rw [lastOf_snoc_ne (hne id hgroup hid), hlast]⟩
    by_cases hcid : killer.rawIdToCgroup command.id ∈ killer.unprotected
    · by_cases hgroup : killer.cgroupOf command.id = group
      · have hdone : lastAct group (killer.doing command) = some command.type := by
          simp [doing, hcid, lastAct, Event.effect, hgroup]
        rw [hdone, Option.some_or] at h
        cases h
        exact ⟨command.id, hgroup, hcid, lastOf_snoc_same commands command⟩
      · have hnone : lastAct group (killer.doing command) = none := by
          simp [doing, hcid, lastAct, Event.effect, hgroup]
        rw [hnone, Option.none_or] at h
        exact hearlier h (fun id hid _ heq ↦ hgroup (heq ▸ hid))
    · have hnone : lastAct group (killer.doing command) = none := by
        simp [doing, hcid, lastAct]
      rw [hnone, Option.none_or] at h
      exact hearlier h (fun id _ hid heq ↦ hcid (heq ▸ hid))

end KillerImpl

namespace KillerMain

open KillerStreamInterface

variable {platform : KillerImpl.Platform} {Id : Type} {number : Id → Killer.Id}
  {layouts : Layouts Id} {killer : KillerImpl platform}

/-- The requests that the broker has made and had answered, and the answers. -/
def requests (tr : List Unistd.Event) :
    List (KillerInterface.Command × Except Unistd.Exception Killer.Status) :=
  tr.filterMap (fun | .killer act id r => some (⟨act, id⟩, r) | _ => none)

/-- The two ends of the killer's channel. The killer has read of what the broker has written,
the request `flight` included, and what it has written is what the broker has got or will get
as its answers. -/
def Linked (number : Id → Killer.Id) (layouts : Layouts Id) (tr : List Unistd.Event)
    (flight : Option (Command Id × Bytes)) (tr' : List (Event platform Id)) : Prop :=
  ∃ (exchanged : List ((Command Id × Bytes) × (Killer.Status × Bytes)))
    (replies : List (Killer.Status × Bytes)),
    requests tr = exchanged.map (fun x ↦ (⟨x.1.1.type, number x.1.1.id⟩, .ok x.2.1)) ∧
      input (streams tr') <+:
        ((exchanged.map Prod.fst ++ flight.toList).flatMap layouts.command.record).map some ∧
      output (streams tr') = (exchanged.map Prod.snd ++ replies).flatMap layouts.status.record

section Channel

variable {rounds : List (Round platform)} {last : List (Event platform Id)}
  {o : Outcome Unistd.Exception Empty}

theorem Stands.groups_part (h : Stands number layouts killer last o)
    {records : List (Command Id × Bytes)}
    (hread : input (streams last) <+: (records.flatMap layouts.command.record).map some)
    (hdone : ∀ e ∈ groups last, e.Done) :
    groups last = [] ∨ ∃ y records', records = y :: records' ∧
      groups last <+: killer.doing ⟨y.1.type, number y.1.id⟩ := by
  obtain ⟨bytes, n, hinput, hgroups, -⟩ := h.cases
  rw [hinput] at hread
  rcases hgroups with hnil | ⟨hlen, status, acts, hcarried, hpart⟩
  · exact .inl hnil
  · obtain ⟨y, records', rfl, hdecoded, -⟩ := record_read hlen hread
    exact .inr ⟨y, records', rfl, hdecoded ▸ hcarried.part hpart hdone⟩

theorem carried_doing {records : List (Command Id × Bytes)}
    (h : List.Forall₂ (fun y x ↦ KillerImpl.Carried killer ⟨y.1.type, number y.1.id⟩
      x.status x.acts) records rounds) (hdone : ∀ e ∈ rounds.flatMap Round.acts, e.Done) :
    rounds.flatMap Round.acts =
      records.flatMap (fun y ↦ killer.doing ⟨y.1.type, number y.1.id⟩) := by
  induction h with
  | nil => rfl
  | cons hcarried _ ih =>
    rw [List.flatMap_cons] at hdone
    obtain ⟨hdone, hdone'⟩ := List.forall_mem_append.mp hdone
    rw [List.flatMap_cons, List.flatMap_cons, hcarried.doing hdone, ih hdone']

theorem Linked.groups {tr : List Unistd.Event} {flight : Option (Command Id × Bytes)}
    {tr' : List (Event platform Id)} (h : Linked number layouts tr flight tr')
    (hcourse : Course number layouts killer tr' o rounds last) (hdone : ∀ e ∈ groups tr', e.Done) :
    ∃ part, KillerMain.groups tr' =
        ((requests tr).map Prod.fst).flatMap killer.doing ++ part ∧
      (part = [] ∨ ∃ y ∈ flight, part <+: killer.doing ⟨y.1.type, number y.1.id⟩) := by
  obtain ⟨exchanged, replies, hrequests, hread, hwritten⟩ := h
  obtain ⟨hserved, hstands, rfl⟩ := hcourse
  have hpos := layouts.status.size_pos
  have hlen : rounds.length = exchanged.length + replies.length := by
    have hlength := congrArg List.length hwritten
    rw [streams_append, output_append, hstands.output_nil, List.append_nil, output_rounds,
      length_records, List.length_append, List.length_map] at hlength
    exact Nat.eq_of_mul_eq_mul_right hpos hlength
  rw [groups_append, groups_rounds] at hdone ⊢
  obtain ⟨hdone, hdone'⟩ := List.forall_mem_append.mp hdone
  rw [streams_append, input_append, input_rounds] at hread
  obtain ⟨first, more, hrecords, hdecoded, hrest⟩ := rounds_records hserved hread
  have hfirst : first.length = rounds.length := hdecoded.length_eq
  have hacts := carried_doing (rounds_carried hserved hdecoded) hdone
  have hasked : ((requests tr).map Prod.fst).flatMap killer.doing =
      (exchanged.map Prod.fst).flatMap (fun y ↦ killer.doing ⟨y.1.type, number y.1.id⟩) := by
    rw [hrequests, List.map_map, List.flatMap_map, List.flatMap_map]
    rfl
  -- the rounds are the answered requests, and then perhaps the one under way
  obtain ⟨served, rfl, hserving⟩ : ∃ served, first = exchanged.map Prod.fst ++ served ∧
      flight.toList = served ++ more := by
    have hpre : exchanged.map Prod.fst <+: first := by
      refine List.prefix_of_prefix_length_le (List.prefix_append _ flight.toList)
        (hrecords ▸ List.prefix_append first more) ?_
      rw [List.length_map, hfirst, hlen]
      omega
    obtain ⟨served, rfl⟩ := hpre
    rw [List.append_assoc] at hrecords
    exact ⟨served, rfl, List.append_cancel_left hrecords⟩
  rw [hacts, List.flatMap_append, hasked, List.append_assoc]
  refine ⟨_, rfl, ?_⟩
  cases served with
  | nil =>
    rcases hstands.groups_part hrest hdone' with hnil | ⟨y, records, rfl, hpart⟩
    · exact .inl hnil
    · refine .inr ⟨y, ?_, hpart⟩
      rw [List.nil_append] at hserving
      exact Option.mem_toList.mp (hserving ▸ List.mem_cons_self)
  | cons y served =>
    have hflight : flight = some y ∧ served = [] ∧ more = [] := by
      cases flight with
      | none => cases hserving
      | some z => simp_all
    obtain ⟨rfl, rfl, rfl⟩ := hflight
    refine .inr ⟨y, rfl, ?_⟩
    rcases hstands.groups_part hrest hdone' with hnil | ⟨_, _, hcons, -⟩
    · rw [hnil]
      simp
    · cases hcons

end Channel

theorem lastRequest_requests (id : Killer.Id) (tr : List Unistd.Event) :
    lastRequest id tr = KillerImpl.lastOf id ((requests tr).map Prod.fst) := by
  simp only [lastRequest, KillerImpl.lastOf, requests, List.filterMap_map,
    List.filterMap_filterMap]
  congr 2
  funext e
  cases e <;> rfl

end KillerMain

namespace BrokerMain

open BrokerInterface KillerMain

variable {casts : Casts} {options : BrokerImpl.Options} {lib : TokenizerLibrary}
  {tr : List BrokerMain.Event}

theorem received_ne_nil {d : Dispatch} (h : Received casts [] d) : False := by
  obtain ⟨command, ia, htakes, -⟩ := h
  have hcalling : (BrokerTextInterface.recvCommand casts).Calling := (calling_load _).bind
  have hexec := executes_run (BrokerTextInterface.recvCommand casts) {} []
  exact hcalling _ _ _ _ hexec _ htakes.outcome (List.length_eq_zero_iff.mp htakes.length)

theorem Awaited.before {id : Killer.Id} {e : Unistd.Event}
    (h : Awaited casts options id (tr ++ [.system e])) : Awaited casts options id tr := by
  obtain ⟨past, used, events, i, discardRemaining, p, htr, hrecv, hp, hid⟩ := h
  cases events using List.reverseRecOn with
  | nil =>
    rw [List.map_nil, List.append_nil] at htr
    cases used using List.reverseRecOn with
    | nil => exact (received_ne_nil hrecv).elim
    | append_singleton used c =>
      rw [List.map_append, ← List.append_assoc] at htr
      obtain ⟨-, hlast⟩ := List.append_inj' htr rfl
      cases hlast
  | append_singleton events e' =>
    rw [List.map_append, ← List.append_assoc] at htr
    obtain ⟨htr, -⟩ := List.append_inj' htr rfl
    exact ⟨past, used, events, i, discardRemaining, p, htr, hrecv, hp, hid⟩

def Requests (lib : TokenizerLibrary) (casts : Casts) (options : BrokerImpl.Options)
    (tr : List BrokerMain.Event) (act : Killer.Act) (id : Killer.Id) : Prop :=
  ∃ status o, ∃ b : BrokerImpl lib, (BrokerMain.main casts).Executes (BrokerImpl.new options)
    (tr ++ [.system (.killer act id (.ok status))]) o b

/-- The processes of the broker and of the killer, whatever the judge sends: of all control
groups at most one is thawed at a time, and it is that of the solution whose `end` the judge
waits for, as long as the system does to the groups what the killer asks for. -/
theorem game_thaws_one {platform : KillerImpl.Platform} [DecidableEq platform.ControlGroup]
    {Id : Type} {number : Id → Killer.Id}
    {layouts : KillerStreamInterface.Layouts Id}
    {killer killer' : KillerImpl platform} {tr' : List (KillerMain.Event platform Id)}
    {o : Outcome String ℕ} {o' : Outcome Empty ℕ} {b : BrokerImpl lib}
    {flight : Option (KillerStreamInterface.Command Id × Bytes)}
    (hbroker : (BrokerMain.main casts).Executes (BrokerImpl.new options) tr o b)
    (hflight : ∀ x ∈ flight, Requests lib casts options tr x.1.type (number x.1.id))
    (hkiller : (KillerMain.main number layouts).Executes killer tr' o' killer')
    (hlinked : Linked number layouts (systems tr) flight tr') (hdone : ∀ e ∈ groups tr', e.Done) :
    (∀ group group', KillerImpl.lastAct group (groups tr') = some .UNFREEZE →
      KillerImpl.lastAct group' (groups tr') = some .UNFREEZE → group = group') ∧
    ∀ group, KillerImpl.lastAct group (groups tr') = some .UNFREEZE →
      ∃ id, killer.cgroupOf id = group ∧ Awaited casts options id tr := by
  obtain ⟨f, hcourse, -⟩ := BrokerMain.main_spec (BrokerImpl.new options) tr o b hbroker
  obtain ⟨-, f', rounds, last, hcourse', -⟩ := KillerMain.main_spec killer tr' o' killer' hkiller
  obtain ⟨part, hacts, hpart⟩ := hlinked.groups hcourse' hdone
  -- the moment of the broker's that the groups have got to
  obtain ⟨events, hsupervised, hbefore, hgroups⟩ : ∃ events, Supervised casts options events ∧
      (∀ id, Awaited casts options id events → Awaited casts options id tr) ∧
        ∀ group, KillerImpl.lastAct group (groups tr') = KillerImpl.lastAct group
          (((requests (systems events)).map Prod.fst).flatMap killer.doing) := by
    have hsame (hnone : ∀ group, KillerImpl.lastAct group part = none) :
        ∀ group, KillerImpl.lastAct group (groups tr') = KillerImpl.lastAct group
          (((requests (systems tr)).map Prod.fst).flatMap killer.doing) := by
      intro group
      rw [hacts, KillerImpl.lastAct_append, hnone, Option.none_or]
    rcases hpart with rfl | ⟨⟨command, padding⟩, hmem, hpart⟩
    · exact ⟨tr, supervised hcourse, fun _ h ↦ h, hsame (fun _ ↦ rfl)⟩
    · rcases KillerImpl.part_cases hpart with hnone | rfl
      · exact ⟨tr, supervised hcourse, fun _ h ↦ h, hsame hnone⟩
      · obtain ⟨status, _, _, hnext⟩ := hflight _ hmem
        obtain ⟨_, hcourse, -⟩ := BrokerMain.main_spec (BrokerImpl.new options) _ _ _ hnext
        refine ⟨_, supervised hcourse, fun _ h ↦ h.before, fun group ↦ ?_⟩
        rw [systems_append, hacts]
        simp [requests, systems]
  have hthawed {group : platform.ControlGroup}
      (h : KillerImpl.lastAct group (groups tr') = some .UNFREEZE) :
      ∃ id, killer.cgroupOf id = group ∧ lastRequest id (systems events) = some .UNFREEZE := by
    rw [hgroups] at h
    obtain ⟨id, hgroup, -, hlast⟩ := KillerImpl.lastAct_doing h
    exact ⟨id, hgroup, by rw [lastRequest_requests, hlast]⟩
  refine ⟨fun group group' h h' ↦ ?_, fun group h ↦ ?_⟩
  · obtain ⟨id, rfl, hid⟩ := hthawed h
    obtain ⟨id', rfl, hid'⟩ := hthawed h'
    rw [hsupervised.alone id id' hid hid']
  · obtain ⟨id, hgroup, hid⟩ := hthawed h
    exact ⟨id, hgroup, hbefore id (hsupervised.awaited id hid)⟩

/-- Both solutions of `pairSession` may be frozen. -/
def pairKiller : KillerImpl .paths := KillerImpl.new { unprotected := {10, 20} } [[103]]

def killerSession : Execution (KillerMain.Event .paths UInt8) (KillerImpl .paths) Empty ℕ :=
  (KillerMain.main (fun x ↦ (x.toNat : ℤ)) KillerStreamInterface.shortLayouts).run pairKiller
    ([[0, 0, 10], [0, 0, 20], [1, 0, 20]].flatMap
      (fun bytes ↦ bytes.map cutSession.typed ++ cutSession.quiet 3))

theorem game_thaws_one_pair :
    (∀ group group',
      KillerImpl.lastAct group (groups killerSession.trace) = some .UNFREEZE →
        KillerImpl.lastAct group' (groups killerSession.trace) = some .UNFREEZE → group = group') ∧
    ∀ group, KillerImpl.lastAct group (groups killerSession.trace) = some .UNFREEZE →
      ∃ id, pairKiller.cgroupOf id = group ∧
        Awaited decimalCasts BrokerImpl.Options.pair id pairSession.trace := by
  refine game_thaws_one (executes_run (main decimalCasts) _ _) (nofun : ∀ x ∈ none, _)
    (executes_run (KillerMain.main _ KillerStreamInterface.shortLayouts) _ _) ?_ ?_
  · refine ⟨[((⟨.FREEZE, 10⟩, []), .OK, []), ((⟨.FREEZE, 20⟩, []), .OK, []),
      ((⟨.UNFREEZE, 20⟩, []), .OK, [])], [], ?_, ?_, ?_⟩
    · decide +kernel
    · decide +kernel
    · decide +kernel
  · decide +kernel

example : KillerImpl.lastAct [[105, 100, 95, 50, 48]] (groups killerSession.trace) =
    some .UNFREEZE := by decide +kernel

end BrokerMain

end FlowctlGame
