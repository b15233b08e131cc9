import FlowctlGame.Broker
import FlowctlGame.Interaction.Path
import FlowctlGame.Interaction.Reasoning
import FlowctlGame.Text.Cast

namespace FlowctlGame

open Interaction Program

namespace KillerImpl

abbrev ControlGroupId := Bytes

def defaultPattern : Bytes := [105, 100, 95, 37, 49, 37]

structure Options where
  unprotected : Finset Killer.Id := ∅
  pattern : Bytes := defaultPattern

/-- What the killer uses of `system::cgroup` and of `boost::format`: the name and the parent of
a control group, the child that is attached by a name, and an id put into a pattern. -/
structure Platform where
  ControlGroup : Type
  name : ControlGroup → ControlGroupId
  parent : ControlGroup → ControlGroup
  attachChild : ControlGroup → ControlGroupId → ControlGroup
  format : Bytes → Killer.Id → Bytes

/-- What is documented of it. -/
structure Platform.Lawful (platform : Platform) : Prop where
  name_attachChild : ∀ group child, platform.name (platform.attachChild group child) = child
  parent_attachChild : ∀ group child, platform.parent (platform.attachChild group child) = group
  format_default : ∀ id, platform.format defaultPattern id = [105, 100, 95] ++ Text.int.print id

variable {platform : Platform}

theorem Platform.Lawful.attachChild_injective (h : platform.Lawful)
    (group : platform.ControlGroup) : Function.Injective (platform.attachChild group) := by
  intro child child' heq
  rw [← h.name_attachChild group child, heq, h.name_attachChild]

theorem Platform.Lawful.format_injective (h : platform.Lawful) :
    Function.Injective (platform.format defaultPattern) := by
  intro id id' heq
  rw [h.format_default, h.format_default, List.append_cancel_left_eq] at heq
  exact Text.int.print_injective heq

/-- A pattern that has no directives but `%1%` and `%%`. -/
def substitute (argument : Bytes) : Bytes → Bytes
  | 37 :: 49 :: 37 :: pattern => argument ++ substitute argument pattern
  | 37 :: 37 :: pattern => 37 :: substitute argument pattern
  | c :: pattern => c :: substitute argument pattern
  | [] => []

/-- A control group as the names on the way to it from the root of its hierarchy. -/
def Platform.paths : Platform where
  ControlGroup := List Bytes
  name group := group.getLastD []
  parent group := group.dropLast
  attachChild group child := group ++ [child]
  format pattern id := substitute (Text.int.print id) pattern

instance : DecidableEq Platform.paths.ControlGroup :=
  inferInstanceAs (DecidableEq (List Bytes))

theorem Platform.paths_lawful : Platform.paths.Lawful where
  name_attachChild _ _ := List.getLastD_concat
  parent_attachChild _ _ := List.dropLast_concat
  format_default id := by simp [paths, defaultPattern, substitute]

/-- The calls of the killer: a control group is attached, and an act is done to it. Both may
throw. -/
inductive Event (platform : Platform) where
  | attach (group : platform.ControlGroup) (done : Bool)
  | act (act : Killer.Act) (group : platform.ControlGroup) (done : Bool)

structure Answer where
  attached : Bool := true
  acted : Bool := true

end KillerImpl

structure KillerImpl (platform : KillerImpl.Platform) where
  thisControlGroup : platform.ControlGroup
  parentControlGroup : platform.ControlGroup
  unprotected : Finset KillerImpl.ControlGroupId
  pattern : Bytes

namespace KillerImpl

variable {platform : Platform}

/-- The constructor, in a process that runs in `thisControlGroup`. -/
def new (options : Options) (thisControlGroup : platform.ControlGroup) : KillerImpl platform where
  thisControlGroup := thisControlGroup
  parentControlGroup := platform.parent thisControlGroup
  unprotected :=
    (options.unprotected.image (platform.format options.pattern)).erase
      (platform.name thisControlGroup)
  pattern := options.pattern

def rawIdToCgroup (killer : KillerImpl platform) (id : Killer.Id) : ControlGroupId :=
  platform.format killer.pattern id

/-- The control group that a request for `id` is about. -/
def cgroupOf (killer : KillerImpl platform) (id : Killer.Id) : platform.ControlGroup :=
  platform.attachChild killer.parentControlGroup (killer.rawIdToCgroup id)

abbrev Calls (platform : Platform) (α : Type) :=
  Program Answer (Event platform) (KillerImpl platform) Empty α

def request (act : Killer.Act) (id : Killer.Id) : Calls platform Killer.Status := do
  let killer ← get
  let cid := killer.rawIdToCgroup id
  if cid ∉ killer.unprotected then
    pure .PROTECTED
  else
    let cg := platform.attachChild killer.parentControlGroup cid
    if ← ask Answer.attached (Event.attach cg) then
      if ← ask Answer.acted (Event.act act cg) then
        pure .OK
      else
        pure .ERROR
    else
      pure .ERROR

def freeze (id : Killer.Id) : Calls platform Killer.Status := request .FREEZE id

def unfreeze (id : Killer.Id) : Calls platform Killer.Status := request .UNFREEZE id

def terminate (id : Killer.Id) : Calls platform Killer.Status := request .TERMINATE id

/-- An event of the killer's that is about a group in `groups`. -/
def Event.Within (groups : platform.ControlGroup → Prop) : Event platform → Prop
  | .attach group _ | .act _ group _ => groups group

theorem Event.Within.mono {groups groups' : platform.ControlGroup → Prop} {e : Event platform}
    (h : e.Within groups) (hg : ∀ group, groups group → groups' group) : e.Within groups' := by
  cases e with
  | attach group done => exact hg group h
  | act act group done => exact hg group h

/-- A request changes nothing in the killer, and is refused without a call exactly if its group
is not one of those that are not protected. -/
theorem request_spec (act : Killer.Act) (id : Killer.Id) (killer : KillerImpl platform) :
    (request act id).Ensures killer (fun tr o killer' ↦ killer' = killer ∧
      (∀ e ∈ tr, killer.rawIdToCgroup id ∈ killer.unprotected ∧
        e.Within (· = killer.cgroupOf id)) ∧
      ∀ status, o = .returned status →
        (status = .PROTECTED ↔ killer.rawIdToCgroup id ∉ killer.unprotected)) := by
  simp only [request, ensures_get_bind]
  split
  · next hcid => simpa using hcid
  · next hcid =>
    rw [not_not] at hcid
    simp only [ensures_ask_bind]
    refine ⟨by simp, fun m ↦ ?_⟩
    split
    · simp only [ensures_ask_bind]
      refine ⟨by simp [hcid, Event.Within, cgroupOf], fun m' ↦ ?_⟩
      split <;> simp [hcid, Event.Within, cgroupOf]
    · simp [hcid, Event.Within, cgroupOf]

end KillerImpl

namespace KillerInterface

variable {platform : KillerImpl.Platform}

structure Command where
  type : Killer.Act
  id : Killer.Id
deriving DecidableEq, Repr

def run (command : Command) : KillerImpl.Calls platform Killer.Status :=
  match command.type with
  | .FREEZE => KillerImpl.freeze command.id
  | .UNFREEZE => KillerImpl.unfreeze command.id
  | .TERMINATE => KillerImpl.terminate command.id

structure Exchange (platform : KillerImpl.Platform) where
  command : Command
  outcome : Outcome Empty Killer.Status
  trace : List (KillerImpl.Event platform)

def Serves (killer : KillerImpl platform) (x : Exchange platform)
    (killer' : KillerImpl platform) : Prop :=
  (run x.command).Executes killer x.trace x.outcome killer'

theorem run_eq (command : Command) :
    run command = (KillerImpl.request command.type command.id :
      KillerImpl.Calls platform Killer.Status) := by
  unfold run
  cases command.type <;> rfl

theorem serves_spec {killer killer' : KillerImpl platform} {x : Exchange platform}
    (h : Serves killer x killer') :
    killer' = killer ∧
      (∀ e ∈ x.trace, killer.rawIdToCgroup x.command.id ∈ killer.unprotected ∧
        e.Within (· = killer.cgroupOf x.command.id)) ∧
      ∀ status, x.outcome = .returned status →
        (status = .PROTECTED ↔ killer.rawIdToCgroup x.command.id ∉ killer.unprotected) := by
  unfold Serves at h
  rw [run_eq] at h
  exact KillerImpl.request_spec _ _ _ _ _ _ h

/-- Whatever it is asked for, the killer stays as it was constructed. -/
theorem serves_path {killer killer' : KillerImpl platform} {h : List (Exchange platform)}
    (hp : Path Serves killer h killer') : ∀ x ∈ h, Serves killer x killer := by
  induction hp with
  | nil => exact fun _ hx ↦ absurd hx List.not_mem_nil
  | cons hs _ ih =>
    obtain ⟨rfl, -⟩ := serves_spec hs
    exact List.forall_mem_cons.mpr ⟨hs, ih⟩

end KillerInterface

end FlowctlGame
