import FlowctlGame.Dialogue
import FlowctlGame.Interaction.Record
import FlowctlGame.Unistd

namespace FlowctlGame.KillerStreamInterface

open BrokerTextInterface (Offers offers_refl)
open Interaction Program Unistd

structure Command (Id : Type) where
  type : Killer.Act
  id : Id
deriving DecidableEq, Repr

/-- How both ends lay out what they send each other. -/
structure Layouts (Id : Type) where
  command : Layout UInt8 (Command Id)
  status : Layout UInt8 Killer.Status

structure Answer where
  byte : Option UInt8 := none
  padding : Bytes := []
  write : Except Errno Unit := .ok ()
  killer : Killer.Status := .OK

inductive Event (Id : Type) where
  | read (byte : Option UInt8)
  | write (data : Bytes) (r : Except Errno Unit)
  | killer (act : Killer.Act) (id : Id) (status : Killer.Status)

abbrev Calls (Id α : Type) := Program Answer (Event Id) Unit Exception α

variable {Id α : Type}

/-- `out.write`, `out.flush` and the check of the stream. -/
def sendBytes (layout : Layout UInt8 α) (obj : α) : Calls Id Unit := do
  let (_, r) ← ask (fun m ↦ (layout.bytes obj m.padding, m.write)) (fun (data, r) ↦ .write data r)
  match r with
  | .ok () => pure ()
  | .error e => raise (.systemError "write" e)

def recvBytes (layout : Layout UInt8 α) : Calls Id α := do
  let buf ← receive Answer.byte .read layout.size
  if buf.length < layout.size then
    raise .endOfFileError
  else
    pure (layout.value buf)

variable (layouts : Layouts Id)

def send (command : Command Id) : Calls Id Unit := sendBytes layouts.command command

def sendStatus (status : Killer.Status) : Calls Id Unit := sendBytes layouts.status status

def recvCommand : Calls Id (Command Id) := recvBytes layouts.command

def recvStatus : Calls Id Killer.Status := recvBytes layouts.status

def freeze (id : Id) : Calls Id Killer.Status := do
  send layouts ⟨.FREEZE, id⟩
  recvStatus layouts

def unfreeze (id : Id) : Calls Id Killer.Status := do
  send layouts ⟨.UNFREEZE, id⟩
  recvStatus layouts

def terminate (id : Id) : Calls Id Killer.Status := do
  send layouts ⟨.TERMINATE, id⟩
  recvStatus layouts

def killer (act : Killer.Act) (id : Id) : Calls Id Killer.Status :=
  ask Answer.killer (.killer act id)

def run (command : Command Id) : Calls Id Unit :=
  match command.type with
  | .FREEZE => do
    let status ← killer .FREEZE command.id
    sendStatus layouts status
  | .UNFREEZE => do
    let status ← killer .UNFREEZE command.id
    sendStatus layouts status
  | .TERMINATE => do
    let status ← killer .TERMINATE command.id
    sendStatus layouts status

def runOnce : Calls Id Unit := do
  let command ← recvCommand layouts
  run layouts command

def request (command : Command Id) : Calls Id Killer.Status :=
  match command.type with
  | .FREEZE => freeze layouts command.id
  | .UNFREEZE => unfreeze layouts command.id
  | .TERMINATE => terminate layouts command.id

theorem request_eq (command : Command Id) :
    request layouts command = send layouts command >>= fun _ ↦ recvStatus layouts := by
  obtain ⟨type, id⟩ := command
  cases type <;> rfl

theorem run_eq (command : Command Id) :
    run layouts command = killer command.type command.id >>= sendStatus layouts := by
  obtain ⟨type, id⟩ := command
  cases type <;> rfl

namespace Event

def input : Event Id → List (Option UInt8)
  | .read byte => [byte]
  | _ => []

def output : Event Id → Bytes
  | .write data (.ok ()) => data
  | _ => []

def asked : Event Id → List (Command Id × Killer.Status)
  | .killer act id status => [(⟨act, id⟩, status)]
  | _ => []

def Works : Event Id → Prop
  | .write _ (.error _) => False
  | _ => True

end Event

def input (tr : List (Event Id)) : List (Option UInt8) := tr.flatMap Event.input

def output (tr : List (Event Id)) : Bytes := tr.flatMap Event.output

def asked (tr : List (Event Id)) : List (Command Id × Killer.Status) := tr.flatMap Event.asked

def reads (bytes : Bytes) : List (Event Id) := bytes.map (Event.read ∘ some)

theorem input_append (tr tr' : List (Event Id)) : input (tr ++ tr') = input tr ++ input tr' :=
  List.flatMap_append

theorem output_append (tr tr' : List (Event Id)) : output (tr ++ tr') = output tr ++ output tr' :=
  List.flatMap_append

theorem asked_append (tr tr' : List (Event Id)) : asked (tr ++ tr') = asked tr ++ asked tr' :=
  List.flatMap_append

theorem reads_spec (bytes : Bytes) : input (reads bytes : List (Event Id)) = bytes.map some ∧
    output (reads bytes : List (Event Id)) = [] ∧ asked (reads bytes : List (Event Id)) = [] := by
  induction bytes with
  | nil => exact ⟨rfl, rfl, rfl⟩
  | cons b bytes ih =>
    obtain ⟨hinput, houtput, hasked⟩ := ih
    exact ⟨congrArg (some b :: ·) hinput, houtput, hasked⟩

section Traces

variable {act : Killer.Act} {id : Id} {status : Killer.Status} {bytes data : Bytes}

theorem input_reads : input (reads bytes : List (Event Id)) = bytes.map some :=
  (reads_spec bytes).1

theorem output_write : output ([.write data (.ok ())] : List (Event Id)) = data :=
  List.append_nil data

@[simp]
theorem input_served : input (reads bytes ++ [.killer act id status, .write data (.ok ())]) =
    bytes.map some := by
  rw [input_append, input_reads]
  exact List.append_nil _

@[simp]
theorem output_served : output (reads bytes ++ [.killer act id status, .write data (.ok ())]) =
    data := by
  rw [output_append, (reads_spec bytes).2.1]
  exact List.append_nil data

@[simp]
theorem asked_served : asked (reads bytes ++ [.killer act id status, .write data (.ok ())]) =
    [(⟨act, id⟩, status)] := by
  rw [asked_append, (reads_spec bytes).2.2]
  rfl

@[simp]
theorem input_ended : input (reads bytes ++ [.read none] : List (Event Id)) =
    bytes.map some ++ [none] := by
  rw [input_append, input_reads]
  rfl

@[simp]
theorem output_ended : output (reads bytes ++ [.read none] : List (Event Id)) = [] := by
  rw [output_append, (reads_spec bytes).2.1]
  rfl

@[simp]
theorem asked_ended : asked (reads bytes ++ [.read none] : List (Event Id)) = [] := by
  rw [asked_append, (reads_spec bytes).2.2]
  rfl

end Traces

section Specs

variable {layouts} {layout : Layout UInt8 α} {tr : List (Event Id)}

inductive Obtained (layout : Layout UInt8 α) : List (Event Id) → Outcome Exception α → Prop
  | object (bytes : Bytes) (hlen : bytes.length = layout.size) :
      Obtained layout (reads bytes) (.returned (layout.value bytes))
  | ended (bytes : Bytes) (hlen : bytes.length < layout.size) :
      Obtained layout (reads bytes ++ [.read none]) (.raised .endOfFileError)
  | waiting (bytes : Bytes) (hlen : bytes.length < layout.size) :
      Obtained layout (reads bytes) .pending

theorem recvBytes_spec (layout : Layout UInt8 α) :
    (recvBytes layout : Calls Id α).Ensures () (fun tr o _ ↦ Obtained layout tr o) := by
  unfold recvBytes
  refine (receive_spec layout.size ()).sequence ?_ ?_ ?_
  · intro tr buf _ h
    cases h.2 with
    | whole _ hlen =>
      rw [if_neg (by omega), ensures_pure, List.append_nil]
      exact .object buf hlen
    | short _ hlen =>
      rw [if_pos hlen, ensures_raise, List.append_nil]
      exact .ended buf hlen
  · intro tr e _ h
    cases h.2
  · intro tr _ h
    cases h.2 with
    | waiting buf hlen => exact .waiting buf hlen

theorem sendBytes_spec (layout : Layout UInt8 α) (obj : α) :
    (sendBytes layout obj : Calls Id Unit).Ensures () (fun tr o _ ↦
      (∀ u, o = .returned u → ∃ padding, tr = [.write (layout.bytes obj padding) (.ok ())]) ∧
        ∀ e, o = .raised e → ∃ e ∈ tr, ¬ e.Works) := by
  simp only [sendBytes, ensures_ask_bind]
  refine ⟨by simp, fun m ↦ ?_⟩
  cases m.write with
  | ok u => simp
  | error e => simp [Event.Works]

inductive Requested (layouts : Layouts Id) (command : Command Id) :
    List (Event Id) → Outcome Exception Killer.Status → Prop
  | unsent : Requested layouts command [] .pending
  | unwritable (data : Bytes) (e : Errno) :
      Requested layouts command [.write data (.error e)] (.raised (.systemError "write" e))
  | sent (padding : Bytes) {got : List (Event Id)} {o : Outcome Exception Killer.Status}
      (hgot : Obtained layouts.status got o) :
      Requested layouts command
        (.write (layouts.command.bytes command padding) (.ok ()) :: got) o

theorem request_spec (layouts : Layouts Id) (command : Command Id) :
    (request layouts command).Ensures () (fun tr o _ ↦ Requested layouts command tr o) := by
  simp only [request_eq, send, sendBytes, bind_assoc, ensures_ask_bind]
  refine ⟨.unsent, fun m ↦ ?_⟩
  cases m.write with
  | ok u => exact (recvBytes_spec layouts.status).mono (fun _ _ _ hgot ↦ .sent m.padding hgot)
  | error e => exact ensures_raise.mpr (.unwritable _ e)

/-- A pass of the target's loop that ends, while the reply can be written. -/
inductive Passed (layouts : Layouts Id) : List (Event Id) → Outcome Exception Unit → Prop
  | served (bytes padding : Bytes) (status : Killer.Status)
      (hlen : bytes.length = layouts.command.size) :
      Passed layouts
        (reads bytes ++ [.killer (layouts.command.value bytes).type
          (layouts.command.value bytes).id status,
          .write (layouts.status.bytes status padding) (.ok ())]) (.returned ())
  | ended (bytes : Bytes) (hlen : bytes.length < layouts.command.size) :
      Passed layouts (reads bytes ++ [.read none]) (.raised .endOfFileError)

theorem runOnce_spec (layouts : Layouts Id) :
    (runOnce layouts).Ensures () (fun tr o _ ↦ o ≠ .pending → (∀ e ∈ tr, e.Works) →
      Passed layouts tr o) := by
  unfold runOnce
  refine (recvBytes_spec layouts.command).sequence ?_ ?_ ?_
  · intro tr command _ h
    cases h with
    | object bytes hlen =>
      simp only [run_eq, killer, ensures_ask_bind]
      refine ⟨by simp, fun m ↦ ?_⟩
      refine (sendBytes_spec layouts.status m.killer).mono (fun tr o _ ho hfin hworks ↦ ?_)
      cases o with
      | returned u =>
        obtain ⟨padding, rfl⟩ := ho.1 u rfl
        exact .served bytes padding m.killer hlen
      | raised e =>
        obtain ⟨e', hmem, he'⟩ := ho.2 e rfl
        exact absurd (hworks e' (by simp [hmem])) he'
      | pending => exact absurd rfl hfin
  · intro tr e _ h _ _
    cases h with
    | ended bytes hlen => exact .ended bytes hlen
  · exact fun _ _ _ hfin ↦ absurd rfl hfin

def answerOf (byte : Option UInt8) : Answer := { byte := byte }

theorem performs_sendBytes (layout : Layout UInt8 α) (obj : α) (padding : Bytes) :
    (sendBytes layout obj : Calls Id Unit).Performs ()
      [.write (layout.bytes obj padding) (.ok ())] (.returned ()) () :=
  (performs_ask _ _ ({ padding := padding } : Answer) ()).bind (performs_pure () ())

theorem performs_recvBytes (layout : Layout UInt8 α) {bytes : Bytes}
    (hlen : bytes.length = layout.size) :
    (recvBytes layout : Calls Id α).Performs () (reads bytes)
      (.returned (layout.value bytes)) () := by
  unfold recvBytes
  rw [← hlen, ← List.append_nil (reads bytes)]
  refine (receive_whole answerOf (fun _ ↦ rfl) bytes ()).bind ?_
  rw [if_neg (Nat.lt_irrefl _)]
  exact performs_pure _ ()

theorem Obtained.nothing {o : Outcome Exception α}
    (h : Obtained layout ([] : List (Event Id)) o) : o = .pending := by
  generalize hnone : ([] : List (Event Id)) = tr at h
  cases h with
  | object bytes hlen =>
    have hpos := layout.size_pos
    rw [← hlen, List.map_eq_nil_iff.mp hnone.symm] at hpos
    exact absurd hpos (Nat.lt_irrefl 0)
  | ended bytes => exact absurd hnone.symm (List.append_ne_nil_of_right_ne_nil _ (by simp))
  | waiting => rfl

theorem request_begun (layouts : Layouts Id) (command : Command Id) (padding : Bytes) :
    (request layouts command).Executes ()
      [.write (layouts.command.bytes command padding) (.ok ())] .pending () := by
  have hnone : ((recvStatus layouts).run () []).trace = [] :=
    List.length_eq_zero_iff.mp (Nat.le_zero.mp ((recvStatus layouts).within () []))
  have hgot := recvBytes_spec layouts.status _ _ _ (executes_run (recvStatus layouts) () [])
  rw [hnone] at hgot
  refine ⟨[{ padding := padding }], ?_⟩
  rw [request_eq]
  change Execution.mk ((recvStatus layouts).run () []).outcome ()
    (.write (layouts.command.bytes command padding) (.ok ()) ::
      ((recvStatus layouts).run () []).trace) = _
  rw [hnone, hgot.nothing]

theorem performs_request (layouts : Layouts Id) (command : Command Id) (padding : Bytes)
    (x : Killer.Status × Bytes) :
    (request layouts command).Performs ()
      (.write (layouts.command.bytes command padding) (.ok ()) :: reads (layouts.status.record x))
      (.returned x.1) () := by
  rw [request_eq]
  have hgot : (recvStatus layouts).Performs () (reads (layouts.status.record x))
      (.returned (layouts.status.value (layouts.status.record x))) () :=
    performs_recvBytes layouts.status (layouts.status.length_record x)
  rw [layouts.status.value_record] at hgot
  exact (performs_sendBytes layouts.command command padding).bind hgot

theorem performs_recvBytes_ended (layout : Layout UInt8 α) {bytes : Bytes}
    (hlen : bytes.length < layout.size) :
    (recvBytes layout : Calls Id α).Performs () (reads bytes ++ [.read none])
      (.raised .endOfFileError) () := by
  unfold recvBytes
  rw [← List.append_nil (reads bytes ++ [Event.read none])]
  refine (receive_short answerOf (fun _ ↦ rfl) bytes hlen ()).bind ?_
  rw [if_pos hlen]
  exact performs_raise _ ()

theorem performs_runOnce (layouts : Layouts Id) (x : Command Id × Bytes)
    (status : Killer.Status) (padding : Bytes) :
    (runOnce layouts).Performs () (reads (layouts.command.record x) ++
      [.killer x.1.type x.1.id status, .write (layouts.status.bytes status padding) (.ok ())])
      (.returned ()) () := by
  refine (performs_recvBytes layouts.command (layouts.command.length_record x)).bind ?_
  rw [layouts.command.value_record]
  rw [run_eq]
  exact (performs_ask _ _ ({ killer := status } : Answer) ()).bind (performs_sendBytes _ _ padding)

end Specs

end FlowctlGame.KillerStreamInterface
