import FlowctlGame.Lines

namespace FlowctlGame.Judge

open Broker BrokerInterface Interaction Program Text
open BrokerTextInterface (escaping loadVector Receives commandLine resultLine)

/-- `_escape` of a string, the characters taken as bytes. -/
def escape (obj : Bytes) : Bytes :=
  obj.flatMap (fun c ↦
    if c = 32 then [92, 32]
    else if c = 10 then [92, 110]
    else if c = 92 then [92, 92]
    else [c])

inductive State where
  | INIT
  | ORDINAL
  | ESCAPE
deriving DecidableEq, Repr

/-- The local variables of `_split`. -/
structure Splitting where
  tokens : List Bytes := []
  buf : Bytes := []
  state : State := .INIT
deriving DecidableEq, Repr

def transform (c : UInt8) : Option UInt8 :=
  if c = 92 then some 92 else if c = 110 then some 10 else if c = 32 then some 32 else none

def unknownCharacter (c : UInt8) : String :=
  "Unknown character \"" ++ String.singleton (Char.ofNat c.toNat) ++ "\""

/-- The body of the loop of `_split`; an error is a failed assertion. -/
def splitStep (s : Splitting) (c : UInt8) : Except String Splitting :=
  match s.state with
  | .INIT | .ORDINAL =>
    if c = 92 then .ok { s with state := .ESCAPE }
    else if c = 32 ∨ c = 10 then .ok { s with tokens := s.tokens ++ [s.buf], buf := [] }
    else .ok { s with buf := s.buf ++ [c] }
  | .ESCAPE =>
    match transform c with
    | some d => .ok { s with buf := s.buf ++ [d], state := .ORDINAL }
    | none => .error (unknownCharacter c)

/-- `_split`. -/
def split (line : Bytes) : Except String (List Bytes) := do
  let s ← line.foldlM splitStep {}
  if s.state = .ESCAPE then
    .error "Last character may not be escape"
  else if s.buf ≠ [] then
    pure (s.tokens ++ [s.buf])
  else
    pure s.tokens

structure ResourceLimits where
  user_time_limit_millis : ℤ
  real_time_limit_millis : ℤ
deriving DecidableEq, Repr

/-- `_escape` of `ResourceLimits`, which has an `__escape__` of its own. -/
def ResourceLimits.escape (limits : ResourceLimits) : Bytes :=
  Judge.escape (printInt limits.user_time_limit_millis) ++ [32] ++
    Judge.escape (printInt limits.real_time_limit_millis)

structure Result where
  status : Bytes
  data : Bytes
deriving DecidableEq, Repr

/-- `Result.from_line`. -/
def Result.fromLine (line : Bytes) : Except String Result := do
  match ← split line with
  | [status, data] => pure ⟨status, data⟩
  | _ => .error "TypeError"

/-- The functions that print a command; `begin` selects one of three by its arguments. -/
inductive Call where
  | begin₁ (id : ℕ)
  | begin₂ (id : ℕ) (tokenizer_argument : Bytes)
  | begin₃ (id : ℕ) (tokenizer_argument : Bytes) (resource_limits : ResourceLimits)
  | send (id : ℕ) (msg : Bytes)
  | end' (id : ℕ) (discardRemaining : Option Bool)
  | terminate (id : ℕ)
deriving DecidableEq, Repr

/-- `print` puts a blank between its arguments and `ending` after them. -/
def print (args : List Bytes) (ending : Bytes := [10]) : Bytes :=
  (args.intersperse [32]).flatten ++ ending

def Call.printed : Call → Bytes
  | .begin₁ id => print [ascii "BEGIN", printDigits id]
  | .begin₂ id tokenizer_argument =>
    print [ascii "BEGIN", printDigits id, escape tokenizer_argument]
  | .begin₃ id tokenizer_argument resource_limits =>
    print [ascii "BEGIN", printDigits id, escape tokenizer_argument, resource_limits.escape]
  | .send id msg => print [ascii "SEND", printDigits id, escape msg]
  | .end' id none => print [ascii "END", printDigits id] [] ++ print []
  | .end' id (some discardRemaining) =>
    print [ascii "END", printDigits id] [] ++ print [[], bif discardRemaining then [49] else [48]]
  | .terminate id => print [ascii "TERMINATE", printDigits id]

def Call.command : Call → Command
  | .begin₁ id => ⟨.BEGIN, UInt64.ofNat id, []⟩
  | .begin₂ id tokenizer_argument => ⟨.BEGIN, UInt64.ofNat id, [tokenizer_argument]⟩
  | .begin₃ id tokenizer_argument resource_limits => ⟨.BEGIN, UInt64.ofNat id,
      [tokenizer_argument, printInt resource_limits.user_time_limit_millis,
        printInt resource_limits.real_time_limit_millis]⟩
  | .send id msg => ⟨.SEND, UInt64.ofNat id, [msg]⟩
  | .end' id none => ⟨.END, UInt64.ofNat id, []⟩
  | .end' id (some discardRemaining) =>
    ⟨.END, UInt64.ofNat id, [bif discardRemaining then [49] else [48]]⟩
  | .terminate id => ⟨.TERMINATE, UInt64.ofNat id, []⟩

def Call.id : Call → ℕ
  | .begin₁ id | .begin₂ id _ | .begin₃ id _ _ | .send id _ | .end' id _ | .terminate id => id

theorem transform_eq (c : UInt8) : transform c = escaping.decode c := by
  simp only [transform, escaping, BrokerTextInterface.decodeByte]
  by_cases hmark : c = 92
  · simp [hmark]
  · by_cases hn : c = 110
    · simp [hn]
    · by_cases hsep : c = 32
      · simp [hsep]
      · simp [hmark, hn, hsep]

theorem split_line {line : Bytes} (hline : 10 ∉ line) (s : Splitting) :
    match escaping.tokensFrom (s.state = .ESCAPE) s.buf line with
    | some tokens => ∃ state, state ≠ .ESCAPE ∧
        (line ++ [10]).foldlM splitStep s = .ok ⟨s.tokens ++ tokens, [], state⟩
    | none => ∃ msg, (line ++ [10]).foldlM splitStep s = .error msg := by
  induction line generalizing s with
  | nil =>
    obtain ⟨tokens, buf, state⟩ := s
    cases state with
    | INIT => exact ⟨.INIT, by decide, rfl⟩
    | ORDINAL => exact ⟨.ORDINAL, by decide, rfl⟩
    | ESCAPE => exact ⟨_, rfl⟩
  | cons c line ih =>
    simp only [List.mem_cons, not_or] at hline
    obtain ⟨hc, hline⟩ := hline
    have hne : c ≠ 10 := fun h ↦ hc h.symm
    by_cases hs : s.state = .ESCAPE
    · simp only [Escaping.tokensFrom, hs, decide_true, if_true]
      cases hd : transform c with
      | none =>
        have hdecode : escaping.decode c = none := (transform_eq c).symm.trans hd
        rw [hdecode]
        refine ⟨unknownCharacter c, ?_⟩
        simp only [List.cons_append, List.foldlM_cons, splitStep, hs, hd]
        rfl
      | some d =>
        have hdecode : escaping.decode c = some d := (transform_eq c).symm.trans hd
        rw [hdecode]
        simp only [List.cons_append, List.foldlM_cons, splitStep, hs, hd]
        exact ih hline { s with buf := s.buf ++ [d], state := .ORDINAL }
    · have hfalse : decide (s.state = .ESCAPE) = false := by simpa using hs
      have hstep : splitStep s c =
          if c = 92 then .ok { s with state := .ESCAPE }
          else if c = 32 ∨ c = 10 then .ok { s with tokens := s.tokens ++ [s.buf], buf := [] }
          else .ok { s with buf := s.buf ++ [c] } := by
        unfold splitStep
        cases hstate : s.state with
        | ESCAPE => exact absurd hstate hs
        | INIT => rfl
        | ORDINAL => rfl
      simp only [Escaping.tokensFrom, hfalse, Bool.false_eq_true, if_false, List.cons_append,
        List.foldlM_cons, hstep]
      by_cases hmark : c = 92
      · rw [if_pos hmark, if_pos (show c = escaping.mark from hmark)]
        exact ih hline { s with state := .ESCAPE }
      · rw [if_neg hmark, if_neg (show c ≠ escaping.mark from hmark)]
        by_cases hsep : c = 32
        · rw [if_pos (show c = 32 ∨ c = 10 from .inl hsep),
            if_pos (show c = escaping.separator from hsep)]
          have hrest := ih hline { s with tokens := s.tokens ++ [s.buf], buf := [] }
          simp only [hfalse] at hrest
          cases htokens : escaping.tokensFrom false [] line with
          | none =>
            rw [htokens] at hrest
            exact hrest
          | some tokens =>
            rw [htokens] at hrest
            simp only [List.append_assoc, List.singleton_append] at hrest
            exact hrest
        · rw [if_neg (show ¬ (c = 32 ∨ c = 10) from not_or.mpr ⟨hsep, hne⟩),
            if_neg (show c ≠ escaping.separator from hsep)]
          have hrest := ih hline { s with buf := s.buf ++ [c] }
          simp only [hfalse] at hrest
          exact hrest

theorem split_newline {line : Bytes} (hline : 10 ∉ line) :
    match escaping.tokens line with
    | some tokens => split (line ++ [10]) = .ok tokens
    | none => ∃ msg, split (line ++ [10]) = .error msg := by
  have hfold := split_line hline {}
  have hinit : decide (({} : Splitting).state = .ESCAPE) = false := rfl
  rw [hinit] at hfold
  unfold Escaping.tokens split
  cases htokens : escaping.tokensFrom false [] line with
  | none =>
    rw [htokens] at hfold
    obtain ⟨msg, hmsg⟩ := hfold
    exact ⟨msg, by rw [hmsg]; rfl⟩
  | some tokens =>
    rw [htokens] at hfold
    obtain ⟨state, hstate, hok⟩ := hfold
    simp only [hok, bind, Except.bind]
    rw [if_neg hstate]
    simp [pure, Except.pure]

theorem loadVector_newline {line : Bytes} (hline : 10 ∉ line) :
    match escaping.tokens line with
    | some tokens =>
      (loadVector.run {} ((line ++ [10]).map some)).outcome = .returned tokens
    | none => ∃ e, (loadVector.run {} ((line ++ [10]).map some)).outcome = .raised e := by
  have key : loadVector.Settles {} (line.map some ++ some 10 :: []) (fun o _ _ ↦
      match escaping.tokens line with
      | some tokens => o = .returned tokens
      | none => ∃ e, o = .raised e) := by
    refine BrokerTextInterface.settles_loadVector hline (.inr rfl) ?_ ?_
    · intro texts htokens
      rw [htokens]
    · intro h e _ ia rest
      rw [h.resolve_right (fun h ↦ by cases h)]
      exact ⟨e, rfl⟩
  have hline' : (line ++ [10]).map some = line.map some ++ some 10 :: [] := by simp
  rw [hline']
  exact key.2

theorem split_agrees {line : Bytes} (hline : 10 ∉ line) :
    (∀ tokens, split (line ++ [10]) = .ok tokens ↔
      (loadVector.run {} ((line ++ [10]).map some)).outcome = .returned tokens) ∧
    ((∃ msg, split (line ++ [10]) = .error msg) ↔
      ∃ e, (loadVector.run {} ((line ++ [10]).map some)).outcome = .raised e) := by
  have hsplit := split_newline hline
  have hvector := loadVector_newline hline
  cases htokens : escaping.tokens line with
  | some tokens =>
    rw [htokens] at hsplit hvector
    simp only at hsplit hvector
    rw [hsplit, hvector]
    simp
  | none =>
    rw [htokens] at hsplit hvector
    obtain ⟨msg, hmsg⟩ := hsplit
    obtain ⟨e, he⟩ := hvector
    rw [hmsg, he]
    simp

/-- Where no escape is open, a backslash must be followed by one of three bytes. -/
theorem split_unknown {before after : Bytes} {c : UInt8} {tokens : List Bytes}
    (hok : split (before ++ [10]) = .ok tokens) (hc : c ∉ [92, 110, 32]) :
    ∃ msg, split (before ++ 92 :: c :: after) = .error msg := by
  simp only [split, List.foldlM_append] at hok ⊢
  cases hfold : before.foldlM splitStep {} with
  | error msg => exact ⟨msg, rfl⟩
  | ok s =>
    rw [hfold] at hok
    obtain ⟨listed, buf, state⟩ := s
    have hd : transform c = none := by
      simp only [List.mem_cons, List.not_mem_nil, or_false, not_or] at hc
      rw [transform, if_neg hc.1, if_neg hc.2.1, if_neg hc.2.2]
    cases state with
    | ESCAPE => cases hok
    | INIT =>
      refine ⟨unknownCharacter c, ?_⟩
      simp [bind, Except.bind, List.foldlM_cons, splitStep, hd]
    | ORDINAL =>
      refine ⟨unknownCharacter c, ?_⟩
      simp [bind, Except.bind, List.foldlM_cons, splitStep, hd]

theorem escape_eq (obj : Bytes) : escape obj = BrokerTextInterface.escape obj := rfl

theorem escape_plain {obj : Bytes} (h : ∀ c ∈ obj, c ≠ 32 ∧ c ≠ 10 ∧ c ≠ 92) :
    escape obj = obj := by
  induction obj with
  | nil => rfl
  | cons c obj ih =>
    obtain ⟨⟨h₁, h₂, h₃⟩, hobj⟩ := List.forall_mem_cons.mp h
    have hcons : escape (c :: obj) =
        (if c = 32 then [92, 32] else if c = 10 then [92, 110] else if c = 92 then [92, 92]
          else [c]) ++ escape obj := rfl
    rw [hcons, ih hobj, if_neg h₁, if_neg h₂, if_neg h₃, List.singleton_append]

theorem escape_digits (n : ℕ) : escape (printDigits n) = printDigits n := by
  refine escape_plain (fun c hc ↦ ?_)
  have hbounds := mem_printDigits hc
  refine ⟨?_, ?_, ?_⟩
  · rintro rfl
    exact absurd hbounds.1 (by decide)
  · rintro rfl
    exact absurd hbounds.1 (by decide)
  · rintro rfl
    exact absurd hbounds.2 (by decide)

/-- Enumerators are printed by name and numbers in decimal notation. -/
structure Decimal (casts : Casts) : Prop where
  type : ∀ type, casts.type.print type = type.name
  id : ∀ id, casts.id.print id = printDigits id.toNat
  rep : ∀ rep, casts.rep.print rep = printInt rep.toInt
  bool : ∀ b, casts.bool.print b = bif b then [49] else [48]

theorem decimal_decimalCasts : Decimal decimalCasts :=
  ⟨fun _ ↦ rfl, fun _ ↦ rfl, fun _ ↦ rfl, fun _ ↦ rfl⟩

theorem printed_eq {casts : Casts} (hcasts : Decimal casts) (call : Call) (hid : call.id < 2 ^ 64) :
    call.printed = commandLine casts call.command := by
  have hname (type : CommandType) : BrokerTextInterface.escape type.name = type.name := by
    cases type <;> rfl
  have hline (type : CommandType) (args : List Bytes) :
      commandLine casts ⟨type, UInt64.ofNat call.id, args⟩ =
        type.name ++ 32 :: printDigits call.id ++
          args.flatMap (fun arg ↦ 32 :: escape arg) ++ [10] := by
    have hdigits : (UInt64.ofNat call.id).toNat = call.id := UInt64.toNat_ofNat_of_lt' hid
    have hnumber : BrokerTextInterface.escape (printDigits call.id) = printDigits call.id :=
      escape_digits call.id
    simp only [commandLine, hcasts.type, hcasts.id, hname, hdigits, hnumber, escape_eq,
      List.append_assoc, List.singleton_append]
  cases call with
  | begin₁ id =>
    refine Eq.trans ?_ (hline .BEGIN []).symm
    simp [Call.printed, print, Call.id, CommandType.name]
  | begin₂ id tokenizer_argument =>
    refine Eq.trans ?_ (hline .BEGIN [tokenizer_argument]).symm
    simp [Call.printed, print, Call.id, CommandType.name]
  | begin₃ id tokenizer_argument resource_limits =>
    refine Eq.trans ?_ (hline .BEGIN [tokenizer_argument,
      printInt resource_limits.user_time_limit_millis,
      printInt resource_limits.real_time_limit_millis]).symm
    simp [Call.printed, print, Call.id, CommandType.name, ResourceLimits.escape]
  | send id msg =>
    refine Eq.trans ?_ (hline .SEND [msg]).symm
    simp [Call.printed, print, Call.id, CommandType.name]
  | end' id discardRemaining =>
    cases discardRemaining with
    | none =>
      refine Eq.trans ?_ (hline .END []).symm
      simp [Call.printed, print, Call.id, CommandType.name]
    | some discardRemaining =>
      refine Eq.trans ?_ (hline .END [bif discardRemaining then [49] else [48]]).symm
      cases discardRemaining with
      | false => simp [Call.printed, print, Call.id, CommandType.name, escape]
      | true => simp [Call.printed, print, Call.id, CommandType.name, escape]
  | terminate id =>
    refine Eq.trans ?_ (hline .TERMINATE []).symm
    simp [Call.printed, print, Call.id, CommandType.name]

/-- The id fits `std::size_t`, and limits fit the 64 bits of their milliseconds. -/
def Call.Fits : Call → Prop
  | .begin₃ id _ limits => id < 2 ^ 64 ∧
      (-2 ^ 63 ≤ limits.user_time_limit_millis ∧ limits.user_time_limit_millis < 2 ^ 63) ∧
      -2 ^ 63 ≤ limits.real_time_limit_millis ∧ limits.real_time_limit_millis < 2 ^ 63
  | call => call.id < 2 ^ 64

/-- The call of the other client that stands for the same command. -/
def Call.request : Call → BrokerInterface.Call
  | .begin₁ id => .begin₁ (UInt64.ofNat id)
  | .begin₂ id tokenizer_argument => .begin₂ (UInt64.ofNat id) tokenizer_argument
  | .begin₃ id tokenizer_argument limits => .begin₃ (UInt64.ofNat id) tokenizer_argument
      ⟨Int64.ofInt limits.user_time_limit_millis, Int64.ofInt limits.real_time_limit_millis⟩
  | .send id msg => .send (UInt64.ofNat id) msg
  | .end' id none => .end₁ (UInt64.ofNat id)
  | .end' id (some discardRemaining) => .end₂ (UInt64.ofNat id) discardRemaining
  | .terminate id => .terminate (UInt64.ofNat id)

theorem Call.Fits.id_lt {call : Call} (h : call.Fits) : call.id < 2 ^ 64 := by
  cases call with
  | begin₃ id tokenizer_argument limits => exact h.1
  | _ => exact h

theorem command_request {casts : Casts} (hcasts : Decimal casts) {call : Call} (h : call.Fits) :
    call.command = call.request.command casts := by
  cases call with
  | begin₃ id tokenizer_argument limits =>
    obtain ⟨-, huser, hreal⟩ := h
    simp only [Call.command, Call.request, BrokerInterface.Call.command, hcasts.rep,
      Int64.toInt_ofInt_of_le huser.1 huser.2, Int64.toInt_ofInt_of_le hreal.1 hreal.2]
  | end' id discardRemaining =>
    cases discardRemaining with
    | none => rfl
    | some discardRemaining =>
      simp only [Call.command, Call.request, BrokerInterface.Call.command, hcasts.bool]
  | begin₁ id => rfl
  | begin₂ id tokenizer_argument => rfl
  | send id msg => rfl
  | terminate id => rfl

theorem receives_printed {casts : Casts} (hcasts : Decimal casts) {call : Call}
    (hid : call.id < 2 ^ 64) (more : Bytes) :
    Receives casts (call.printed ++ more) (.recvCommand, .command call.command) more := by
  obtain ⟨ia, htakes⟩ := BrokerTextInterface.takes_recvCommand casts call.command
  rw [← printed_eq hcasts call hid] at htakes
  have hreceive : (BrokerTextInterface.receive casts .recvCommand).Takes {}
      (call.printed.map some) (.returned (.command call.command)) ia := htakes.bind_pure rfl
  have hrun := hreceive.run_append (more.map some ++ [none])
  rw [← List.append_assoc, ← List.map_append] at hrun
  refine ⟨?_, ?_⟩
  · rw [hrun]
    exact hreceive.outcome
  · rw [hrun, hreceive.length, List.length_map, List.drop_left]

theorem fromLine_resultLine (casts : Casts) {result : Broker.Result} (h : result.status.Named) :
    Result.fromLine (resultLine casts result h) =
      .ok ⟨casts.status.print ⟨result.status, h⟩, result.data⟩ := by
  have hjoin : resultLine casts result h =
      escaping.join [casts.status.print ⟨result.status, h⟩, result.data] ++ [10] := by
    simp [resultLine, Escaping.join, Escaping.encodeText, escaping, BrokerTextInterface.escape]
  have hline := BrokerTextInterface.not_mem_join
    [casts.status.print ⟨result.status, h⟩, result.data]
  have hsplit := split_newline hline
  rw [Escaping.tokens_join (by simp)] at hsplit
  rw [hjoin, Result.fromLine, hsplit]
  rfl

/-- `_split` and `unescape` read a line alike, and what either side prints is read by the
other. -/
theorem judge_agrees (casts : Casts) (hcasts : Decimal casts) :
    (∀ line, 10 ∉ line →
      (∀ tokens, split (line ++ [10]) = .ok tokens ↔
        (loadVector.run {} ((line ++ [10]).map some)).outcome = .returned tokens) ∧
      ((∃ msg, split (line ++ [10]) = .error msg) ↔
        ∃ e, (loadVector.run {} ((line ++ [10]).map some)).outcome = .raised e)) ∧
    (∀ before c after tokens, split (before ++ [10]) = .ok tokens → c ∉ [92, 110, 32] →
      ∃ msg, split (before ++ 92 :: c :: after) = .error msg) ∧
    (∀ calls : List Call, (∀ call ∈ calls, call.Fits) → ∀ more,
      Path (Receives casts) (calls.flatMap Call.printed ++ more)
        (calls.map (fun call ↦ (.recvCommand, .command call.command))) more) ∧
    (∀ call : Call, call.Fits → call.command = call.request.command casts) ∧
    ∀ result line, BrokerTextInterface.sendResult casts result = .ok line →
      ∃ h : result.status.Named, Result.fromLine line =
        .ok ⟨casts.status.print ⟨result.status, h⟩, result.data⟩ := by
  refine ⟨fun line hline ↦ split_agrees hline, fun _ _ _ _ ↦ split_unknown, ?_,
    fun _ ↦ command_request hcasts, ?_⟩
  · intro calls hcalls more
    induction calls with
    | nil => exact .nil more
    | cons call calls ih =>
      obtain ⟨hcall, hcalls⟩ := List.forall_mem_cons.mp hcalls
      rw [List.flatMap_cons, List.append_assoc]
      exact .cons (receives_printed hcasts hcall.id_lt _) (ih hcalls)
  · intro result line hsend
    by_cases h : result.status.Named
    · rw [BrokerTextInterface.sendResult_eq h] at hsend
      cases hsend
      exact ⟨h, fromLine_resultLine casts h⟩
    · rw [BrokerTextInterface.sendResult, dif_neg h] at hsend
      cases hsend

def twoRounds : List Call :=
  [.begin₃ 1 [32] ⟨5, -70⟩, .send 1 [10, 92], .end' 1 (some true), .begin₁ 0, .end' 0 none]

theorem judge_agrees_two_rounds :
    Path (Receives decimalCasts) (twoRounds.flatMap Call.printed ++ [])
      [(.recvCommand, .command ⟨.BEGIN, 1, [[32], ascii "5", ascii "-70"]⟩),
        (.recvCommand, .command ⟨.SEND, 1, [[10, 92]]⟩),
        (.recvCommand, .command ⟨.END, 1, [ascii "1"]⟩),
        (.recvCommand, .command ⟨.BEGIN, 0, []⟩), (.recvCommand, .command ⟨.END, 0, []⟩)] [] ∧
    Result.fromLine (ascii "OK \\n\\ \\\\\n") = .ok ⟨ascii "OK", [10, 32, 92]⟩ ∧
    Result.fromLine (ascii "REAL_TIME_LIMIT_EXCEEDED \n") =
      .ok ⟨ascii "REAL_TIME_LIMIT_EXCEEDED", []⟩ := by
  have hagrees := judge_agrees decimalCasts decimal_decimalCasts
  have hpath := hagrees.2.2.1 twoRounds (by simp [twoRounds, Call.Fits, Call.id]) []
  obtain ⟨_, hok⟩ := hagrees.2.2.2.2 ⟨.OK, [10, 32, 92]⟩ _ rfl
  obtain ⟨_, hlimit⟩ := hagrees.2.2.2.2 ⟨.REAL_TIME_LIMIT_EXCEEDED, []⟩ _ rfl
  exact ⟨hpath, hok, hlimit⟩

/-- An id that does not fit `std::size_t` is printed all the same. -/
theorem judge_id_rejected :
    ((BrokerTextInterface.recvCommand decimalCasts).run {}
      ((Call.printed (.terminate (2 ^ 64))).map some)).outcome = .raised .badLexicalCast := by
  decide +kernel

end FlowctlGame.Judge
