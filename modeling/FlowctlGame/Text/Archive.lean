import FlowctlGame.Text.Cast

namespace FlowctlGame.Text

variable {σ α : Type}

/-- A member that a record names for its archives; `copy x y` is `y` with the member
taken over from `x`. -/
structure Field (σ : Type) where
  name : String
  copy : σ → σ → σ

/-- The record `y` after all the named members were taken over from `x`. -/
def restored (fields : List (Field σ)) (x y : σ) : σ :=
  fields.foldl (fun y field ↦ field.copy x y) y

/-- Output and input archives that restore what is named and leave the rest of a record as
it was constructed. -/
structure Archive (fields : List (Field σ)) (constructed : σ) where
  File : Type
  save : σ → File
  load : File → Option σ
  load_save : ∀ x, load (save x) = some (restored fields x constructed)

inductive Ptree where
  | mk (data : List UInt8) (children : List (String × Ptree))

namespace Ptree

def data : Ptree → List UInt8
  | mk data _ => data

def children : Ptree → List (String × Ptree)
  | mk _ children => children

def child (tree : Ptree) (name : String) : Option Ptree := tree.children.lookup name

end Ptree

/-- How the values of a type are put into a property tree. -/
structure Translator (α : Type) where
  save : α → Ptree
  load : Ptree → Option α
  load_save : ∀ a, load (save a) = some a

namespace Translator

def leaf (c : Cast α) : Translator α where
  save a := .mk (c.print a) []
  load tree := c.parse tree.data
  load_save := c.parse_print

/-- A sequence is a node whose children have no names. -/
def list (t : Translator α) : Translator (List α) where
  save as := .mk [] (as.map (fun a ↦ ("", t.save a)))
  load tree := tree.children.mapM (fun child ↦ t.load child.2)
  load_save as := by
    simp only [Ptree.children]
    induction as with
    | nil => rfl
    | cons a as ih => simp [List.map_cons, List.mapM_cons, t.load_save, ih]

def through {β : Type} (t : Translator α) (f : β → α) (g : α → β) (h : ∀ b, g (f b) = b) :
    Translator β where
  save b := t.save (f b)
  load tree := (t.load tree).map g
  load_save b := by rw [t.load_save, Option.map_some, h]

end Translator

/-- A member together with the way it is put into a property tree. -/
structure Member (σ : Type) extends Field σ where
  save : σ → Ptree
  load : Ptree → σ → Option σ
  load_save : ∀ x y, load (save x) y = some (copy x y)

def Member.of (name : String) (t : Translator α) (get : σ → α) (set : α → σ → σ) : Member σ where
  name := name
  copy x := set (get x)
  save x := t.save (get x)
  load tree y := (t.load tree).map (set · y)
  load_save x y := by rw [t.load_save, Option.map_some]

def fields (members : List (Member σ)) : List (Field σ) := members.map (·.toField)

def saveMembers (members : List (Member σ)) (x : σ) : Ptree :=
  .mk [] (members.map (fun member ↦ (member.name, member.save x)))

def loadMembers (tree : Ptree) : List (Member σ) → σ → Option σ
  | [], y => some y
  | member :: members, y => do
    let child ← tree.child member.name
    let y' ← member.load child y
    loadMembers tree members y'

theorem child_saveMembers {members : List (Member σ)} (hn : (members.map (·.name)).Nodup)
    {member : Member σ} (h : member ∈ members) (x : σ) :
    (saveMembers members x).child member.name = some (member.save x) := by
  simp only [Ptree.child, Ptree.children, saveMembers]
  induction members with
  | nil => exact absurd h List.not_mem_nil
  | cons first members ih =>
    rw [List.map_cons, List.nodup_cons] at hn
    rw [List.map_cons, List.lookup_cons]
    rcases List.mem_cons.mp h with rfl | hmem
    · simp
    · have hne : member.name ≠ first.name := by
        intro heq
        exact hn.1 (heq ▸ List.mem_map_of_mem hmem)
      rw [beq_false_of_ne hne]
      exact ih hn.2 hmem

theorem loadMembers_saveMembers {members : List (Member σ)}
    (hn : (members.map (·.name)).Nodup) (x y : σ) :
    loadMembers (saveMembers members x) members y = some (restored (fields members) x y) := by
  suffices key : ∀ part : List (Member σ), (∀ member ∈ part, member ∈ members) → ∀ y,
      loadMembers (saveMembers members x) part y = some (restored (fields part) x y) by
    exact key members (fun _ h ↦ h) y
  intro part
  induction part with
  | nil => exact fun _ _ ↦ rfl
  | cons member part ih =>
    intro hpart y
    obtain ⟨hfirst, hrest⟩ := List.forall_mem_cons.mp hpart
    rw [loadMembers, child_saveMembers hn hfirst]
    simp only [Option.bind_eq_bind, Option.bind_some, member.load_save]
    exact ih hrest _

def Translator.record (members : List (Member σ)) (constructed : σ)
    (hn : (members.map (·.name)).Nodup)
    (hall : ∀ x, restored (fields members) x constructed = x) : Translator σ where
  save := saveMembers members
  load tree := loadMembers tree members constructed
  load_save x := by rw [loadMembers_saveMembers hn, hall]

/-- Archives that keep a property tree. -/
def Archive.ptree (members : List (Member σ)) (constructed : σ)
    (hn : (members.map (·.name)).Nodup) : Archive (fields members) constructed where
  File := Ptree
  save := saveMembers members
  load tree := loadMembers tree members constructed
  load_save x := loadMembers_saveMembers hn x constructed

end FlowctlGame.Text
