import FlowctlGame.Dialogue
import FlowctlGame.Interaction.Embedding
import FlowctlGame.Unterminated

namespace FlowctlGame

open Interaction Program Broker BrokerInterface Text

inductive BrokerTextInterface.Refusal where
  | endOfFileError
  | badLexicalCast
  | abort
deriving DecidableEq, Repr

def BrokerInterface.Error.refusal : Error → BrokerTextInterface.Refusal
  | .endOfFileError => .endOfFileError
  | .badLexicalCast => .badLexicalCast
  | .abort _ => .abort

namespace BrokerTextInterface

variable {α : Type} {casts : Casts} {parse : Bytes → Option α} {line text rest S : Bytes}
  {cut : Bool} {t : Option UInt8} {used more : List (Option UInt8)}

/-- The value of the first token of a line, and what follows the token. With `cut` the line
ends with the stream, and its last token is lost unless it has an escape. -/
def decodeToken (parse : Bytes → Option α) (cut : Bool) (line : Bytes) :
    Except Refusal (α × Option Bytes) :=
  match escaping.first false [] line with
  | none => .error .abort
  | some (text, rest) =>
    if cut ∧ rest = none ∧ 92 ∉ line then .error .endOfFileError
    else
      match parse text with
      | none => .error .badLexicalCast
      | some a => .ok (a, rest)

def decodeTokens (cut : Bool) (line : Bytes) : Except Refusal (List Bytes) :=
  match escaping.tokens line with
  | none => .error .abort
  | some texts => if cut ∧ 92 ∉ lastRaw line then .error .endOfFileError else .ok texts

def decodeCommand (casts : Casts) (cut : Bool) (line : Bytes) : Except Refusal Command :=
  match decodeToken casts.type.parse cut line with
  | .error e => .error e
  | .ok (_, none) => .error .endOfFileError
  | .ok (type, some line) =>
    match decodeToken casts.id.parse cut line with
    | .error e => .error e
    | .ok (id, none) => .ok ⟨type, id, []⟩
    | .ok (id, some line) => (decodeTokens cut line).map (fun args ↦ ⟨type, id, args⟩)

def decode (casts : Casts) (cut : Bool) (line : Bytes) : Except Refusal Dispatch :=
  match decodeCommand casts cut line with
  | .error e => .error e
  | .ok command => (BrokerInterface.run casts command).mapError Error.refusal

/-- The lines of a stream that end with a newline, and what follows the last of them. -/
def splitLines : Bytes → List Bytes × Bytes
  | [] => ([], [])
  | c :: S =>
    let (lines, tail) := splitLines S
    if c = 10 then ([] :: lines, tail)
    else
      match lines with
      | [] => ([], c :: tail)
      | line :: lines => ((c :: line) :: lines, tail)

/-- What a stream asks for, line by line, up to its end. -/
def interpret (casts : Casts) (S : Bytes) : List (Except Refusal Dispatch) :=
  (splitLines S).1.map (decode casts false) ++
    (if (splitLines S).2 = [] then [] else [decode casts true (splitLines S).2]) ++
      [.error .endOfFileError]

def Whole (S : Bytes) : Prop := (splitLines S).2 = []

section Lines

theorem splitLines_line (h : 10 ∉ line) (S : Bytes) :
    splitLines (line ++ 10 :: S) = (line :: (splitLines S).1, (splitLines S).2) := by
  induction line with
  | nil => rfl
  | cons c line ih =>
    simp only [List.mem_cons, not_or] at h
    obtain ⟨hc, hline⟩ := h
    rw [List.cons_append, splitLines, ih hline]
    exact if_neg (fun heq ↦ hc heq.symm)

theorem splitLines_tail (h : 10 ∉ S) : splitLines S = ([], S) := by
  induction S with
  | nil => rfl
  | cons c S ih =>
    simp only [List.mem_cons, not_or] at h
    obtain ⟨hc, hS⟩ := h
    rw [splitLines, ih hS]
    exact if_neg (fun heq ↦ hc heq.symm)

theorem whole_line (h : 10 ∉ line) : Whole (line ++ 10 :: S) ↔ Whole S := by
  rw [Whole, Whole, splitLines_line h]

theorem Whole.nil (h : Whole S) (hS : 10 ∉ S) : S = [] := by
  rwa [Whole, splitLines_tail hS] at h

theorem interpret_line (casts : Casts) (h : 10 ∉ line) (S : Bytes) :
    interpret casts (line ++ 10 :: S) = decode casts false line :: interpret casts S := by
  simp only [interpret, splitLines_line h, List.map_cons, List.cons_append]

theorem interpret_tail (casts : Casts) (h : 10 ∉ S) : ∃ requests, interpret casts S =
    decode casts true S :: requests ∧ (S ≠ [] → requests = interpret casts []) := by
  by_cases hne : S = []
  · subst hne
    exact ⟨[], rfl, fun h ↦ absurd rfl h⟩
  · refine ⟨_, ?_, fun _ ↦ rfl⟩
    simp only [interpret, splitLines_tail h, if_neg hne]
    rfl

end Lines

section Tokens

theorem lastRaw_next (hline : 10 ∉ line)
    (h : escaping.first false [] line = some (text, some rest)) : lastRaw line = lastRaw rest := by
  obtain ⟨raw, raws, hraws⟩ := Escaping.rawsFrom_head (e := escaping) false [] rest
  have hrest : escaping.raws rest = ([] ++ raw) :: raws := hraws
  rw [lastRaw, lastRaw, Escaping.first_some escaping_canonical (escaping_plain hline) h,
    Escaping.raws_separator, hrest]
  rfl

theorem lastRaw_last (hline : 10 ∉ line)
    (h : escaping.first false [] line = some (text, none)) : lastRaw line = line := by
  rw [lastRaw, Escaping.first_last escaping_canonical (escaping_plain hline) h,
    Escaping.raws_encodeText]
  rfl

theorem decodeToken_rest {a : α} (h : decodeToken parse cut line = .ok (a, some rest)) :
    rest <:+ line ∧ rest.length < line.length := by
  unfold decodeToken at h
  cases hfirst : escaping.first false [] line with
  | none =>
    rw [hfirst] at h
    cases h
  | some token =>
    obtain ⟨text, rest'⟩ := token
    rw [hfirst] at h
    dsimp only at h
    split_ifs at h
    cases hparse : parse text with
    | none =>
      rw [hparse] at h
      cases h
    | some a' =>
      rw [hparse] at h
      cases h
      exact ⟨Escaping.first_suffix hfirst, Escaping.first_length hfirst⟩

theorem decodeTokens_eq (hline : 10 ∉ line) :
    decodeTokens cut line =
      match decodeToken some cut line with
      | .error e => .error e
      | .ok (text, none) => .ok [text]
      | .ok (text, some rest) => (decodeTokens cut rest).map (text :: ·) := by
  unfold decodeToken
  cases hfirst : escaping.first false [] line with
  | none => rw [decodeTokens, Escaping.tokens_none hfirst]
  | some token =>
    obtain ⟨text, rest⟩ := token
    cases rest with
    | none =>
      rw [decodeTokens, Escaping.tokens_last hfirst, lastRaw_last hline hfirst]
      by_cases hcut : cut = true ∧ 92 ∉ line
      · simp [hcut]
      · simp [hcut]
    | some rest =>
      simp only [reduceCtorEq, false_and, and_false, if_false]
      rw [decodeTokens, decodeTokens, Escaping.tokens_next hfirst, lastRaw_next hline hfirst]
      cases escaping.tokens rest with
      | none => rfl
      | some texts =>
        dsimp only [Option.map_some]
        split_ifs
        · rfl
        · rfl

end Tokens

section Receive

theorem settles_decodeToken {Q : Outcome Error α → InputArchive → List (Option UInt8) → Prop}
    (hline : 10 ∉ line) (ht : t = none ∨ t = some 10)
    (h : match decodeToken parse t.isNone line with
      | .ok (a, some rest) => Q (.returned a) {} (rest.map some ++ t :: more)
      | .ok (a, none) => Q (.returned a) { end_ := true } more
      | .error r => ∀ e ia left, e.refusal = r → Q (.raised e) ia left) :
    (load parse).Settles {} (line.map some ++ t :: more) Q := by
  refine settles_get_bind (Settles.bind (settles_unescape hline ht rfl ?_))
  have hcut : (t.isNone : Bool) = true ↔ t = none := Option.isNone_iff_eq_none
  unfold decodeToken at h
  cases hfirst : escaping.first false [] line with
  | none =>
    rw [hfirst] at h
    exact fun msg left ↦ h _ _ left rfl
  | some token =>
    obtain ⟨text, rest⟩ := token
    rw [hfirst] at h
    simp only [hcut] at h
    cases rest with
    | some rest =>
      simp only [reduceCtorEq, false_and, and_false, if_false] at h
      dsimp only
      cases hparse : parse text with
      | none =>
        rw [hparse] at h
        exact settles_raise (h _ _ _ rfl)
      | some a =>
        rw [hparse] at h
        exact settles_pure h
    | none =>
      dsimp only
      by_cases hlost : t = none ∧ 92 ∉ line
      · rw [if_pos ⟨hlost.1, rfl, hlost.2⟩] at h
        rw [if_pos hlost]
        exact h _ _ _ rfl
      · rw [if_neg (fun hcond ↦ hlost ⟨hcond.1, hcond.2.2⟩)] at h
        rw [if_neg hlost]
        cases hparse : parse text with
        | none =>
          rw [hparse] at h
          exact settles_raise (h _ _ _ rfl)
        | some a =>
          rw [hparse] at h
          exact settles_pure h

theorem settles_decodeTokens
    {Q : Outcome Error (List Bytes) → InputArchive → List (Option UInt8) → Prop}
    (hline : 10 ∉ line) (ht : t = none ∨ t = some 10)
    (h : match decodeTokens t.isNone line with
      | .ok texts => Q (.returned texts) { end_ := true, last_ := true } more
      | .error r => ∀ e ia left, e.refusal = r → Q (.raised e) ia left) :
    loadVector.Settles {} (line.map some ++ t :: more) Q := by
  refine settles_get_bind (Settles.bind ?_)
  refine Settles.loop (fun v ia env ↦
    (ia = {} ∧ ∃ rest, 10 ∉ rest ∧ env = rest.map some ++ t :: more ∧
      decodeTokens t.isNone line = (decodeTokens t.isNone rest).map (v ++ ·)) ∨
    ia = { end_ := true } ∧ env = more ∧ decodeTokens t.isNone line = .ok v)
    (.inl ⟨rfl, line, hline, rfl, ?_⟩) ?_
  · cases decodeTokens t.isNone line with
    | error e => rfl
    | ok texts => rfl
  intro v ia env hI
  rcases hI with ⟨rfl, rest, hrest, rfl, htokens⟩ | ⟨rfl, rfl, htokens⟩
  · rw [decodeTokens_eq hrest] at htokens
    refine settles_get_bind (Settles.bind (settles_decodeToken hrest ht ?_))
    split at htokens
    · next e hfirst =>
      rw [hfirst]
      rw [htokens] at h
      exact fun e' ia left he ↦ h e' ia left he
    · next text hfirst =>
      rw [hfirst]
      refine settles_pure ⟨.inr ⟨rfl, rfl, htokens⟩, ?_⟩
      simp
      omega
    · next text rest' hfirst =>
      obtain ⟨hsuffix, hlt⟩ := decodeToken_rest hfirst
      rw [hfirst]
      refine settles_pure ⟨.inl ⟨rfl, rest', fun hmem ↦ hrest (hsuffix.subset hmem), rfl, ?_⟩, ?_⟩
      · rw [htokens]
        cases decodeTokens t.isNone rest' with
        | error e => rfl
        | ok texts => simp [Except.map]
      · simpa using hlt
  · rw [htokens] at h
    refine settles_get_bind (settles_pure ((settles_modify ?_).bind))
    exact settles_pure h

/-- A command is received from a line as the line is decoded, and the whole line is taken. -/
theorem settles_decodeCommand
    {Q : Outcome Error Command → InputArchive → List (Option UInt8) → Prop}
    (hline : 10 ∉ line) (ht : t = none ∨ t = some 10)
    (h : match decodeCommand casts t.isNone line with
      | .ok command => ∀ ia, Q (.returned command) ia more
      | .error r => ∀ e ia left, e.refusal = r → Q (.raised e) ia left) :
    (recvCommand casts).Settles {} (line.map some ++ t :: more) Q := by
  unfold decodeCommand at h
  refine Settles.bind (settles_decodeToken hline ht ?_)
  rcases htype : decodeToken casts.type.parse t.isNone line with e | ⟨type, _ | line'⟩
  · rw [htype] at h
    exact h
  · rw [htype] at h
    exact Settles.bind (settles_get_bind (settles_raise (h _ _ _ rfl)))
  · rw [htype] at h
    have hline' : 10 ∉ line' := fun hmem ↦ hline ((decodeToken_rest htype).1.subset hmem)
    refine Settles.bind (settles_decodeToken hline' ht ?_)
    dsimp only at h
    rcases hid : decodeToken casts.id.parse t.isNone line' with e | ⟨id, _ | line''⟩
    · rw [hid] at h
      exact h
    · rw [hid] at h
      exact Settles.bind (takes_loadVector_nil.settles (settles_pure (h _)))
    · rw [hid] at h
      have hline'' : 10 ∉ line'' := fun hmem ↦ hline' ((decodeToken_rest hid).1.subset hmem)
      refine Settles.bind (settles_decodeTokens hline'' ht ?_)
      dsimp only at h
      cases hargs : decodeTokens t.isNone line'' with
      | error e =>
        rw [hargs] at h
        exact h
      | ok args =>
        rw [hargs] at h
        exact settles_pure (h _)

def Decoded (x : Except Refusal α) (more : List (Option UInt8)) (o : Outcome Error α)
    (left : List (Option UInt8)) : Prop :=
  match x with
  | .ok a => o = .returned a ∧ left = more
  | .error r => ∃ e, o = .raised e ∧ e.refusal = r

theorem takes_decode {left : List (Option UInt8)} {o : Outcome Error Command} {ia : InputArchive}
    (hline : 10 ∉ line) (ht : t = none ∨ t = some 10)
    (heq : used ++ left = line.map some ++ t :: more)
    (h : (recvCommand casts).Takes {} used o ia) :
    Decoded (decodeCommand casts t.isNone line) more o left := by
  have hsettles : (recvCommand casts).Settles {} (used ++ left)
      (fun o _ left ↦ Decoded (decodeCommand casts t.isNone line) more o left) := by
    rw [heq]
    refine settles_decodeCommand hline ht ?_
    cases decodeCommand casts t.isNone line with
    | ok command => exact fun _ ↦ ⟨rfl, rfl⟩
    | error r => exact fun e _ _ he ↦ ⟨e, rfl, he⟩
  exact hsettles.taken h

theorem settles_line (casts : Casts) (hline : 10 ∉ line) (ht : t = none ∨ t = some 10) :
    (recvCommand casts).Settles {} (line.map some ++ [t]) (fun _ _ _ ↦ True) := by
  refine settles_decodeCommand hline ht ?_
  split
  · exact fun _ ↦ trivial
  · exact fun _ _ _ _ ↦ trivial

theorem none_not_mem (h : used <+: line.map some ++ [some 10]) :
    none ∉ used := by
  intro hmem
  simpa using h.subset hmem

/-- What is received from a stream with the requests `requests` is the first of them, and the
others are left in the stream. -/
inductive Reception (casts : Casts) (S : Bytes) (used left : List (Option UInt8)) :
    Outcome Error Command → Prop
  | returned {command : Command} {S' : Bytes} (hleft : Offers S' true left)
      (hinterpret : interpret casts S =
        (BrokerInterface.run casts command).mapError Error.refusal :: interpret casts S')
      (hwhole : Whole S → Whole S' ∧ none ∉ used) : Reception casts S used left (.returned command)
  | raised {e : Error} {requests : List (Except Refusal Dispatch)}
      (hinterpret : interpret casts S = .error e.refusal :: requests)
      (hwhole : Whole S → none ∈ used → e = .endOfFileError ∧ requests = []) :
      Reception casts S used left (.raised e)

variable {left : List (Option UInt8)} {o : Outcome Error Command} {ia : InputArchive}

theorem reception_line (hline : 10 ∉ line) (hoffer : Offers (line ++ 10 :: S) true (used ++ left))
    (h : (recvCommand casts).Takes {} used o ia) :
    Reception casts (line ++ 10 :: S) used left o := by
  obtain ⟨k, more, hmore⟩ := hoffer
  have heq : used ++ (left ++ more) =
      line.map some ++ some 10 :: (S.map some ++ List.replicate k none) := by
    rw [← List.append_assoc, hmore]
    simp
  have hdecode := takes_decode hline (.inr rfl) heq h
  have hinterpret := interpret_line casts hline S
  have hnone : none ∉ used := by
    rw [List.append_cons] at heq
    exact none_not_mem ((settles_line casts hline (.inr rfl)).covers h heq)
  cases hcommand : decodeCommand casts false line with
  | ok command =>
    rw [Option.isNone_some, hcommand] at hdecode
    obtain ⟨rfl, hleft⟩ := hdecode
    rw [decode, hcommand] at hinterpret
    exact .returned ⟨k, more, hleft⟩ hinterpret (fun h ↦ ⟨(whole_line hline).mp h, hnone⟩)
  | error r =>
    rw [Option.isNone_some, hcommand] at hdecode
    obtain ⟨e, rfl, rfl⟩ := hdecode
    rw [decode, hcommand] at hinterpret
    exact .raised hinterpret (fun _ hmem ↦ absurd hmem hnone)

theorem reception_tail (hline : 10 ∉ S) (hoffer : Offers S true (used ++ left))
    (h : (recvCommand casts).Takes {} used o ia) : Reception casts S used left o := by
  obtain ⟨k, more, hmore⟩ := hoffer
  obtain ⟨requests, hinterpret, hrequests⟩ := interpret_tail casts hline
  have heq : used ++ (left ++ more ++ [none]) =
      S.map some ++ none :: List.replicate k none := by
    rw [← List.append_assoc, ← List.append_assoc, hmore, cond_true, List.append_assoc,
      ← List.replicate_succ', List.replicate_succ]
  have hdecode := takes_decode hline (.inl rfl) heq h
  cases hcommand : decodeCommand casts true S with
  | ok command =>
    have hne : S ≠ [] := by
      rintro rfl
      cases hcommand
    rw [Option.isNone_none, hcommand] at hdecode
    obtain ⟨rfl, hleft⟩ := hdecode
    rw [decode, hcommand, hrequests hne] at hinterpret
    have hlast : Offers [] true left := by
      refine ⟨k, more ++ [none], ?_⟩
      rw [← List.append_assoc, hleft]
      rfl
    exact .returned hlast hinterpret (fun h ↦ absurd (h.nil hline) hne)
  | error r =>
    rw [Option.isNone_none, hcommand] at hdecode
    obtain ⟨e, rfl, rfl⟩ := hdecode
    rw [decode, hcommand] at hinterpret
    refine .raised hinterpret (fun h _ ↦ ?_)
    obtain rfl := h.nil hline
    cases e with
    | endOfFileError => exact ⟨rfl, (List.cons.inj hinterpret).2.symm⟩
    | badLexicalCast => cases hcommand
    | abort msg => cases hcommand

theorem reception (hoffer : Offers S true (used ++ left))
    (h : (recvCommand casts).Takes {} used o ia) : Reception casts S used left o := by
  have hline := not_mem_nextLine S
  rcases nextLine_cases S with hS | ⟨hS, -⟩
  · rw [hS] at hoffer ⊢
    exact reception_line hline hoffer h
  · rw [← hS] at hline
    exact reception_tail hline hoffer h

theorem offers_pending (hoffer : Offers S true used) (hwhole : Whole S)
    (h : ((recvCommand casts).run {} used).outcome = .pending) : none ∉ used := by
  obtain ⟨k, more, hmore⟩ := hoffer
  rw [cond_true] at hmore
  have hline := not_mem_nextLine S
  rcases nextLine_cases S with hS | ⟨hS, -⟩
  · have heq : used ++ more = (nextLine S).map some ++ [some 10] ++
        ((afterLine S).map some ++ List.replicate k none) := by
      rw [hmore]
      conv_lhs => rw [hS]
      simp
    exact none_not_mem ((settles_line casts hline (.inr rfl)).outlasts h heq)
  · rw [← hS] at hline
    obtain rfl := hwhole.nil hline
    cases k with
    | zero =>
      obtain ⟨rfl, -⟩ := List.append_eq_nil_iff.mp hmore
      exact List.not_mem_nil
    | succ k =>
      obtain ⟨hshort, hne⟩ := (takes_recvCommand_eof casts).shorter h
        (show used ++ more = [none] ++ List.replicate k none from hmore)
      exact fun hmem ↦ hne (hshort.eq_of_length_le (List.length_pos_of_mem hmem))

end Receive

end BrokerTextInterface

end FlowctlGame
