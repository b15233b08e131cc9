import FlowctlGame.BrokerInterface
import FlowctlGame.Interaction.Taking

namespace FlowctlGame.BrokerTextInterface

open Broker BrokerInterface Interaction Program

def escapeByte (c : UInt8) : Bytes :=
  if c = 32 then [92, 32]
  else if c = 10 then [92, 110]
  else if c = 92 then [92, 92]
  else [c]

def escape (text : Bytes) : Bytes := text.flatMap escapeByte

structure OutputArchive where
  output : Bytes := []
  first_ : Bool := true
  last_ : Bool := false

namespace OutputArchive

def print (oa : OutputArchive) (text : Bytes) : OutputArchive :=
  { oa with
    output := oa.output ++ (if oa.first_ then [] else [32]) ++ escape text
    first_ := false }

def put (oa : OutputArchive) (text : Bytes) : Except Error OutputArchive :=
  if oa.last_ then .error (.abort "!last_") else .ok (oa.print text)

def putAll (oa : OutputArchive) : List Bytes → Except Error OutputArchive
  | [] => .ok { oa with last_ := true }
  | text :: texts => do
    let oa ← oa.put text
    oa.putAll texts

def putVector (oa : OutputArchive) (texts : List Bytes) : Except Error OutputArchive :=
  if oa.last_ then .error (.abort "!last_") else oa.putAll texts

def close (oa : OutputArchive) : Bytes := oa.output ++ [10]

end OutputArchive

def sendCommand (casts : Casts) (command : Command) : Except Error Bytes := do
  let oa ← ({} : OutputArchive).put (casts.type.print command.type)
  let oa ← oa.put (casts.id.print command.id)
  let oa ← oa.putVector command.args
  pure oa.close

def sendResult (casts : Casts) (result : Result) : Except Error Bytes :=
  if h : result.status.Named then do
    let oa ← ({} : OutputArchive).put (casts.status.print ⟨result.status, h⟩)
    let oa ← oa.put result.data
    pure oa.close
  else
    .error .badLexicalCast

structure InputArchive where
  end_ : Bool := false
  last_ : Bool := false
deriving DecidableEq, Repr

/-- Programs that take bytes from a stream; `none` is the answer of a stream at its end. -/
abbrev Reads (α : Type) := Program (Option UInt8) (Option UInt8) InputArchive Error α

/-- `input.get(c)`. -/
def getByte : Reads (Option UInt8) := ask id id

inductive UnescapeState where
  | INIT
  | ORDINAL
  | ESCAPE
deriving DecidableEq, Repr

def unknownEscape (c : UInt8) : String :=
  "Unknown escape sequence \"\\" ++ String.singleton (Char.ofNat c.toNat) ++ "\"."

/-- One pass of the loop of `unescape`, with its state and the text so far. It is left at the
end of the stream or at a byte that ends the text. -/
def unescapeStep (entry : UnescapeState × Bytes) :
    Reads ((UnescapeState × Bytes) ⊕ (UnescapeState × Bytes × Option UInt8)) := do
  let (state, buf) := entry
  match ← getByte with
  | none => pure (.inr (state, buf, none))
  | some c =>
    if c = 10 ∨ state ≠ .ESCAPE ∧ c = 32 then
      pure (.inr (state, buf, some c))
    else
      match state with
      | .INIT | .ORDINAL =>
        if c = 92 then pure (.inl (.ESCAPE, buf)) else pure (.inl (state, buf ++ [c]))
      | .ESCAPE =>
        if c = 92 ∨ c = 32 then pure (.inl (.ORDINAL, buf ++ [c]))
        else if c = 110 then pure (.inl (.ORDINAL, buf ++ [10]))
        else raise (.abort (unknownEscape c))

def unescapeEnd (left : UnescapeState × Bytes × Option UInt8) : Reads Bytes := do
  let (state, buf, c) := left
  if c = none ∧ state = .INIT then
    raise .endOfFileError
  else if state = .ESCAPE then
    raise (.abort "state != ESCAPE")
  else
    modify ({ · with end_ := c = none ∨ c = some 10 })
    if c = none ∨ c = some 10 ∨ c = some 32 then pure buf else raise (.abort "end || c == ' '")

def unescape : Reads Bytes := do
  let ia ← get
  if ia.end_ then
    raise .endOfFileError
  else
    let left ← Program.loop unescapeStep (.INIT, [])
    unescapeEnd left

def load {α : Type} (parse : Bytes → Option α) : Reads α := do
  let ia ← get
  if ia.end_ then
    raise .endOfFileError
  else if ia.last_ then
    raise (.abort "!last_")
  else
    let text ← unescape
    match parse text with
    | some a => pure a
    | none => raise .badLexicalCast

def loadVectorStep (v : List Bytes) : Reads (List Bytes ⊕ List Bytes) := do
  let ia ← get
  if ia.end_ then
    pure (.inr v)
  else
    let obj ← load some
    pure (.inl (v ++ [obj]))

def loadVector : Reads (List Bytes) := do
  let ia ← get
  if ia.last_ then
    raise (.abort "!last_")
  else
    let v ← Program.loop loadVectorStep []
    modify ({ · with last_ := true })
    pure v

def recvCommand (casts : Casts) : Reads Command := do
  let type ← load casts.type.parse
  let id ← load casts.id.parse
  let args ← loadVector
  pure ⟨type, id, args⟩

def recvResult (casts : Casts) : Reads Result := do
  let status ← load casts.status.parse
  let data ← load some
  pure ⟨status.val, data⟩

variable {casts : Casts}

def commandLine (casts : Casts) (command : Command) : Bytes :=
  escape (casts.type.print command.type) ++ [32] ++ escape (casts.id.print command.id) ++
    command.args.flatMap (fun arg ↦ 32 :: escape arg) ++ [10]

def resultLine (casts : Casts) (result : Result) (h : result.status.Named) : Bytes :=
  escape (casts.status.print ⟨result.status, h⟩) ++ [32] ++ escape result.data ++ [10]

theorem putAll_eq (oa : OutputArchive) (texts : List Bytes) (hlast : oa.last_ = false)
    (hfirst : oa.first_ = false) :
    oa.putAll texts = .ok { oa with
      output := oa.output ++ texts.flatMap (fun text ↦ 32 :: escape text)
      last_ := true } := by
  induction texts generalizing oa with
  | nil => simp [OutputArchive.putAll]
  | cons text texts ih =>
    have hput : oa.put text = .ok (oa.print text) := by
      rw [OutputArchive.put, hlast]
      rfl
    simp only [OutputArchive.putAll, hput, bind, Except.bind]
    rw [ih (oa.print text) hlast rfl]
    simp [OutputArchive.print, hfirst]

theorem sendCommand_eq (command : Command) :
    sendCommand casts command = .ok (commandLine casts command) := by
  simp only [sendCommand, OutputArchive.put, OutputArchive.print, OutputArchive.putVector, bind,
    Except.bind, if_true, if_false, Bool.false_eq_true, putAll_eq]
  simp [pure, Except.pure, OutputArchive.close, commandLine]

theorem sendResult_eq {result : Result} (h : result.status.Named) :
    sendResult casts result = .ok (resultLine casts result h) := by
  simp only [sendResult, dif_pos h, OutputArchive.put, OutputArchive.print, bind, Except.bind,
    if_true, if_false, Bool.false_eq_true]
  simp [pure, Except.pure, OutputArchive.close, resultLine]

section Unescape

variable {state : UnescapeState} {buf text : Bytes} {c t : UInt8} {ia : InputArchive}

theorem takes_getByte_bind {α : Type} {f : Option UInt8 → Reads α} {answer : Option UInt8} {a : α}
    (h : f answer = pure a) : (getByte >>= f).Takes ia [answer] (.returned a) ia :=
  (takes_ask id id answer ia).bind_pure h

theorem takes_step_eof :
    (unescapeStep (state, buf)).Takes ia [none] (.returned (.inr (state, buf, none))) ia :=
  takes_getByte_bind rfl

theorem takes_step_end (h : t = 10 ∨ state ≠ .ESCAPE ∧ t = 32) :
    (unescapeStep (state, buf)).Takes ia [some t] (.returned (.inr (state, buf, some t))) ia :=
  takes_getByte_bind (if_pos h)

theorem takes_step_ordinary (hs : state ≠ .ESCAPE) (h₁ : c ≠ 32) (h₂ : c ≠ 10) (h₃ : c ≠ 92) :
    (unescapeStep (state, buf)).Takes ia [some c] (.returned (.inl (state, buf ++ [c]))) ia := by
  refine takes_getByte_bind ?_
  cases state with
  | ESCAPE => exact absurd rfl hs
  | INIT => simp [h₁, h₂, h₃]
  | ORDINAL => simp [h₁, h₂, h₃]

theorem takes_step_backslash (hs : state ≠ .ESCAPE) :
    (unescapeStep (state, buf)).Takes ia [some 92] (.returned (.inl (.ESCAPE, buf))) ia := by
  refine takes_getByte_bind ?_
  cases state with
  | ESCAPE => exact absurd rfl hs
  | INIT => simp
  | ORDINAL => simp

theorem takes_step_escaped (h : escapeByte c = [92, t]) :
    (unescapeStep (.ESCAPE, buf)).Takes ia [some t] (.returned (.inl (.ORDINAL, buf ++ [c])))
      ia := by
  refine takes_getByte_bind ?_
  unfold escapeByte at h
  split at h
  · next hc =>
    cases h
    simp [hc]
  · split at h
    · next hc =>
      cases h
      simp [hc]
    · split at h
      · next hc =>
        cases h
        simp [hc]
      · cases h

theorem escapeByte_cases (c : UInt8) :
    (∃ t, escapeByte c = [92, t]) ∨ escapeByte c = [c] ∧ c ≠ 32 ∧ c ≠ 10 ∧ c ≠ 92 := by
  unfold escapeByte
  split
  · exact .inl ⟨_, rfl⟩
  · split
    · exact .inl ⟨_, rfl⟩
    · split
      · exact .inl ⟨_, rfl⟩
      · exact .inr ⟨rfl, ‹_›, ‹_›, ‹_›⟩

theorem not_mem_escape (text : Bytes) : 10 ∉ escape text := by
  intro h
  obtain ⟨c, -, hc⟩ := List.mem_flatMap.mp h
  unfold escapeByte at hc
  split_ifs at hc with h₁ h₂ h₃
  · simp at hc
  · simp at hc
  · simp at hc
  · exact h₂ (List.mem_singleton.mp hc).symm

/-- The encoding of a text is read byte by byte; only an escape ends the initial state. -/
theorem takes_unescapeText (ia : InputArchive) (text buf : Bytes) (hs : state ≠ .ESCAPE) :
    ∃ state', state' ≠ .ESCAPE ∧ (state' = .INIT ↔ state = .INIT ∧ 92 ∉ escape text) ∧
      ∀ used o ia', (Program.loop unescapeStep (state', buf ++ text)).Takes ia used o ia' →
        (Program.loop unescapeStep (state, buf)).Takes ia ((escape text).map some ++ used) o
          ia' := by
  induction text generalizing state buf with
  | nil =>
    refine ⟨state, hs, by simp [escape], fun used o ia' h ↦ ?_⟩
    simpa [escape] using h
  | cons c text ih =>
    have happ : buf ++ c :: text = buf ++ [c] ++ text := by simp
    rw [happ]
    rcases escapeByte_cases c with ⟨x, hx⟩ | ⟨hx, h₁, h₂, h₃⟩
    · have hordinal : UnescapeState.ORDINAL ≠ .ESCAPE := by decide
      obtain ⟨state', hs', hinit, htakes⟩ := ih (buf ++ [c]) hordinal
      refine ⟨state', hs', ?_, fun used o ia' h ↦ ?_⟩
      · simp [hinit, escape, hx]
      · have hlist : (escape (c :: text)).map some ++ used =
            [some 92] ++ ([some x] ++ ((escape text).map some ++ used)) := by
          simp [escape, hx]
        rw [hlist]
        refine .loop_next (takes_step_backslash hs) (fun h ↦ by cases h) ?_
        exact .loop_next (takes_step_escaped hx) (fun h ↦ by cases h) (htakes _ _ _ h)
    · obtain ⟨state', hs', hinit, htakes⟩ := ih (buf ++ [c]) hs
      refine ⟨state', hs', ?_, fun used o ia' h ↦ ?_⟩
      · rw [hinit]
        simp [escape, hx, h₃.symm]
      · have hlist : (escape (c :: text)).map some ++ used =
            [some c] ++ ((escape text).map some ++ used) := by
          simp [escape, hx]
        rw [hlist]
        exact .loop_next (takes_step_ordinary hs h₁ h₂ h₃) (fun h ↦ by cases h)
          (htakes _ _ _ h)

theorem takes_unescapeLoop (ia : InputArchive) (text buf : Bytes) (hs : state ≠ .ESCAPE)
    (ht : t = 10 ∨ t = 32) :
    ∃ state', state' ≠ .ESCAPE ∧ (Program.loop unescapeStep (state, buf)).Takes ia
      ((escape text ++ [t]).map some) (.returned (state', buf ++ text, some t)) ia := by
  obtain ⟨state', hs', -, htakes⟩ := takes_unescapeText ia text buf hs
  refine ⟨state', hs', ?_⟩
  rw [List.map_append]
  exact htakes _ _ _ (.loop_last (takes_step_end (ht.imp_right (fun h ↦ ⟨hs', h⟩))))

theorem takes_unescapeEnd (hs : state ≠ .ESCAPE) (ht : t = 10 ∨ t = 32) :
    (unescapeEnd (state, buf, some t)).Takes ia [] (.returned buf) { ia with end_ := t = 10 } := by
  simp only [unescapeEnd, reduceCtorEq, false_and, if_false, if_neg hs, false_or,
    Option.some.injEq]
  exact (takes_modify _ ia).bind_pure (if_pos ht)

theorem takes_unescape (hend : ia.end_ = false) (ht : t = 10 ∨ t = 32) :
    unescape.Takes ia ((escape text ++ [t]).map some) (.returned text)
      { ia with end_ := t = 10 } := by
  have hinit : UnescapeState.INIT ≠ .ESCAPE := by decide
  obtain ⟨state', hs', hloop⟩ := takes_unescapeLoop ia text [] hinit ht
  refine takes_get_bind ?_
  simp only [hend, Bool.false_eq_true, if_false]
  exact hloop.bind_silent (takes_unescapeEnd hs' ht)

theorem takes_unescape_eof (hend : ia.end_ = false) :
    unescape.Takes ia [none] (.raised .endOfFileError) ia := by
  refine takes_get_bind ?_
  simp only [hend, Bool.false_eq_true, if_false]
  have hloop : (Program.loop unescapeStep (.INIT, [])).Takes ia [none]
      (.returned (.INIT, [], none)) ia := .loop_last takes_step_eof
  exact hloop.bind (takes_raise _ ia)

end Unescape

section Receive

variable {α : Type} {parse : Bytes → Option α} {a : α} {text : Bytes}

theorem takes_load (h : parse text = some a) :
    (load parse).Takes {} ((escape text ++ [32]).map some) (.returned a) {} := by
  refine takes_get_bind ?_
  exact (takes_unescape rfl (.inr rfl)).bind_pure (by rw [h])

theorem takes_load_last (h : parse text = some a) :
    (load parse).Takes {} ((escape text ++ [10]).map some) (.returned a) { end_ := true } := by
  refine takes_get_bind ?_
  exact (takes_unescape rfl (.inl rfl)).bind_pure (by rw [h])

theorem takes_load_eof : (load parse).Takes {} [none] (.raised .endOfFileError) {} := by
  refine takes_get_bind ?_
  exact (takes_unescape_eof rfl).bind_raised

theorem takes_loadVector_nil :
    loadVector.Takes { end_ := true } [] (.returned []) { end_ := true, last_ := true } := by
  refine takes_get_bind ?_
  have hloop : (Program.loop loadVectorStep []).Takes { end_ := true } [] (.returned [])
      { end_ := true } := .loop_last (takes_get_bind (takes_pure _ _))
  exact hloop.bind_silent ((takes_modify _ _).bind_pure rfl)

theorem takes_loadVectorStep {t : UInt8} {ia : InputArchive} {v : List Bytes}
    (h : (load some).Takes {} ((escape text ++ [t]).map some) (.returned text) ia) :
    (loadVectorStep v).Takes {} ((escape text ++ [t]).map some) (.returned (.inl (v ++ [text])))
      ia :=
  takes_get_bind (h.bind_pure rfl)

theorem takes_loadVector_loop (arg : Bytes) (args v : List Bytes) :
    (Program.loop loadVectorStep v).Takes {}
      ((escape arg ++ args.flatMap (fun arg ↦ 32 :: escape arg) ++ [10]).map some)
      (.returned (v ++ arg :: args)) { end_ := true } := by
  have hne (t : UInt8) : (escape arg ++ [t]).map some ≠ [] := by simp
  induction args generalizing arg v with
  | nil =>
    have hlast : (Program.loop loadVectorStep (v ++ [arg])).Takes { end_ := true } []
        (.returned (v ++ [arg])) { end_ := true } :=
      .loop_last (takes_get_bind (takes_pure _ _))
    have htakes := Takes.loop_next (takes_loadVectorStep (takes_load_last rfl)) (hne 10) hlast
    simpa using htakes
  | cons next args ih =>
    have htakes := Takes.loop_next (takes_loadVectorStep (takes_load rfl)) (hne 32)
      (ih next (v ++ [arg]) (fun _ ↦ by simp))
    simpa using htakes

theorem takes_loadVector_cons (arg : Bytes) (args : List Bytes) :
    loadVector.Takes {}
      ((escape arg ++ args.flatMap (fun arg ↦ 32 :: escape arg) ++ [10]).map some)
      (.returned (arg :: args)) { end_ := true, last_ := true } := by
  refine takes_get_bind ?_
  exact (takes_loadVector_loop arg args []).bind_silent ((takes_modify _ _).bind_pure rfl)

theorem takes_recvCommand (casts : Casts) (command : Command) :
    ∃ ia, (recvCommand casts).Takes {} ((commandLine casts command).map some)
      (.returned command) ia := by
  obtain ⟨type, id, args⟩ := command
  refine ⟨{ end_ := true, last_ := true }, ?_⟩
  have htype := takes_load (casts.type.parse_print type)
  cases args with
  | nil =>
    have hid := takes_load_last (casts.id.parse_print id)
    have hline : (commandLine casts ⟨type, id, []⟩).map some =
        (escape (casts.type.print type) ++ [32]).map some ++
          (escape (casts.id.print id) ++ [10]).map some := by
      simp [commandLine]
    rw [hline]
    exact htype.bind (hid.bind_silent (takes_loadVector_nil.bind_pure rfl))
  | cons arg args =>
    have hid := takes_load (casts.id.parse_print id)
    have hline : (commandLine casts ⟨type, id, arg :: args⟩).map some =
        (escape (casts.type.print type) ++ [32]).map some ++
          ((escape (casts.id.print id) ++ [32]).map some ++
            (escape arg ++ args.flatMap (fun arg ↦ 32 :: escape arg) ++ [10]).map some) := by
      simp [commandLine]
    rw [hline]
    exact htype.bind (hid.bind ((takes_loadVector_cons arg args).bind_pure rfl))

theorem takes_recvCommand_eof (casts : Casts) :
    (recvCommand casts).Takes {} [none] (.raised .endOfFileError) {} :=
  takes_load_eof.bind_raised

theorem takes_recvResult_eof (casts : Casts) :
    (recvResult casts).Takes {} [none] (.raised .endOfFileError) {} :=
  takes_load_eof.bind_raised

theorem takes_recvResult (casts : Casts) {result : Result} (h : result.status.Named) :
    ∃ ia, (recvResult casts).Takes {} ((resultLine casts result h).map some)
      (.returned result) ia := by
  have hstatus := takes_load (casts.status.parse_print ⟨result.status, h⟩)
  have hdata : (load some).Takes {} ((escape result.data ++ [10]).map some)
      (.returned result.data) { end_ := true } := takes_load_last rfl
  have hline : (resultLine casts result h).map some =
      (escape (casts.status.print ⟨result.status, h⟩) ++ [32]).map some ++
        (escape result.data ++ [10]).map some := by
    simp [resultLine]
  refine ⟨{ end_ := true }, ?_⟩
  rw [hline]
  exact hstatus.bind (hdata.bind_pure rfl)

end Receive

end FlowctlGame.BrokerTextInterface
