import FlowctlGame.BrokerTextInterface
import FlowctlGame.Interaction.Path
import FlowctlGame.Interaction.Settling
import FlowctlGame.Text.Tokens

namespace FlowctlGame.BrokerTextInterface

open Broker BrokerInterface Interaction Program Text

def decodeByte (c : UInt8) : Option UInt8 :=
  if c = 92 ∨ c = 32 then some c else if c = 110 then some 10 else none

def escaping : Escaping UInt8 where
  separator := 32
  mark := 92
  separator_ne_mark := by decide
  encode := escapeByte
  decode := decodeByte
  encode_cases c := by
    unfold escapeByte
    split
    · next h => exact .inl ⟨32, rfl, by rw [h]; rfl⟩
    · split
      · next h => exact .inl ⟨110, rfl, by rw [h]; rfl⟩
      · split
        · next h => exact .inl ⟨92, rfl, by rw [h]; rfl⟩
        · exact .inr ⟨rfl, ‹_›, ‹_›⟩

theorem join_cons (text : Bytes) (texts : List Bytes) :
    escaping.join (text :: texts) =
      escape text ++ texts.flatMap (fun text ↦ 32 :: escape text) := by
  induction texts generalizing text with
  | nil => simp [Escaping.join, Escaping.encodeText, escaping, escape]
  | cons next texts ih =>
    have hjoin : escaping.join (text :: next :: texts) =
        escape text ++ 32 :: escaping.join (next :: texts) := rfl
    rw [hjoin, ih next, List.flatMap_cons, List.cons_append]

theorem not_mem_join (texts : List Bytes) : 10 ∉ escaping.join texts := by
  cases texts with
  | nil => simp [Escaping.join]
  | cons text texts =>
    rw [join_cons]
    simp [not_mem_escape]

section Unescape

variable {state : UnescapeState} {buf body : Bytes} {t : Option UInt8}
  {more : List (Option UInt8)} {ia : InputArchive} {casts : Casts}

/-- What the loop of `unescape` must establish for `Q`, with `body` left of the line. -/
def UnescapeLoop (t : Option UInt8) (more : List (Option UInt8)) (ia : InputArchive)
    (Q : Outcome Error (UnescapeState × Bytes × Option UInt8) → InputArchive →
      List (Option UInt8) → Prop) (state : UnescapeState) (buf body : Bytes) : Prop :=
  match escaping.first (state = .ESCAPE) buf body with
  | some (text, some rest) => ∀ state', state' ≠ .ESCAPE →
      Q (.returned (state', text, some 32)) ia (rest.map some ++ t :: more)
  | some (text, none) => ∀ state', state' ≠ .ESCAPE →
      (state' = .INIT ↔ state = .INIT ∧ 92 ∉ body) → Q (.returned (state', text, t)) ia more
  | none => (∀ msg rest, Q (.raised (.abort msg)) ia rest) ∧
      ∀ buf', Q (.returned (.ESCAPE, buf', t)) ia more

section Symbols

variable {Q : Outcome Error (UnescapeState × Bytes × Option UInt8) → InputArchive →
  List (Option UInt8) → Prop} {c d : UInt8}

theorem UnescapeLoop.mark (hs : state ≠ .ESCAPE)
    (h : UnescapeLoop t more ia Q state buf (92 :: body)) :
    UnescapeLoop t more ia Q .ESCAPE buf body := by
  have hfirst : escaping.first (state = .ESCAPE) buf (92 :: body) =
      escaping.first (UnescapeState.ESCAPE = .ESCAPE) buf body := by
    simp [Escaping.first, escaping, hs]
  unfold UnescapeLoop at h ⊢
  rw [hfirst] at h
  split at h
  · exact h
  · refine fun state' hs' hinit ↦ h state' hs' ?_
    simpa using hinit
  · exact h

theorem UnescapeLoop.separator (hs : state ≠ .ESCAPE)
    (h : UnescapeLoop t more ia Q state buf (32 :: body)) :
    Q (.returned (state, buf, some 32)) ia (body.map some ++ t :: more) := by
  have hfirst : escaping.first (state = .ESCAPE) buf (32 :: body) = some (buf, some body) := by
    simp [Escaping.first, escaping, hs]
  unfold UnescapeLoop at h
  rw [hfirst] at h
  exact h state hs

theorem UnescapeLoop.ordinary (hs : state ≠ .ESCAPE) (hmark : c ≠ 92) (hsep : c ≠ 32)
    (h : UnescapeLoop t more ia Q state buf (c :: body)) :
    UnescapeLoop t more ia Q state (buf ++ [c]) body := by
  have hfirst : escaping.first (state = .ESCAPE) buf (c :: body) =
      escaping.first (state = .ESCAPE) (buf ++ [c]) body := by
    simp [Escaping.first, escaping, hs, hmark, hsep]
  unfold UnescapeLoop at h ⊢
  rw [hfirst] at h
  split at h
  · exact h
  · refine fun state' hs' hinit ↦ h state' hs' ?_
    rw [hinit, List.mem_cons, not_or]
    simp [hmark.symm]
  · exact h

theorem UnescapeLoop.escaped (hd : decodeByte c = some d)
    (h : UnescapeLoop t more ia Q .ESCAPE buf (c :: body)) :
    UnescapeLoop t more ia Q .ORDINAL (buf ++ [d]) body := by
  have hfirst : escaping.first (UnescapeState.ESCAPE = .ESCAPE) buf (c :: body) =
      escaping.first (UnescapeState.ORDINAL = .ESCAPE) (buf ++ [d]) body := by
    simp [Escaping.first, escaping, hd]
  unfold UnescapeLoop at h ⊢
  rw [hfirst] at h
  split at h
  · exact h
  · refine fun state' hs' hinit ↦ h state' hs' ?_
    simpa using hinit
  · exact h

theorem UnescapeLoop.unknown (hd : decodeByte c = none)
    (h : UnescapeLoop t more ia Q .ESCAPE buf (c :: body)) (msg : String)
    (rest : List (Option UInt8)) : Q (.raised (.abort msg)) ia rest := by
  have hfirst : escaping.first (UnescapeState.ESCAPE = .ESCAPE) buf (c :: body) = none := by
    simp [Escaping.first, escaping, hd]
  unfold UnescapeLoop at h
  rw [hfirst] at h
  exact h.1 msg rest

end Symbols

theorem settles_unescapeStep
    {Q : Outcome Error (UnescapeState × Bytes × Option UInt8) → InputArchive →
      List (Option UInt8) → Prop} (hbody : 10 ∉ body) (ht : t = none ∨ t = some 10)
    (h : UnescapeLoop t more ia Q state buf body) :
    (unescapeStep (state, buf)).Settles ia (body.map some ++ t :: more) (fun o ia' rest ↦
      match o with
      | .returned (.inl (state', buf')) => ia' = ia ∧ ∃ body', 10 ∉ body' ∧
        body'.length < body.length ∧ rest = body'.map some ++ t :: more ∧
          UnescapeLoop t more ia Q state' buf' body'
      | .returned (.inr left) => Q (.returned left) ia' rest
      | .raised e => Q (.raised e) ia' rest
      | .pending => False) := by
  refine Settles.bind ?_
  cases body with
  | nil =>
    refine settles_ask ?_
    have hleft : Q (.returned (state, buf, t)) ia more := by
      unfold UnescapeLoop at h
      cases state with
      | ESCAPE => exact h.2 buf
      | INIT => exact h .INIT (by decide) (by simp)
      | ORDINAL => exact h .ORDINAL (by decide) (by simp)
    rcases ht with rfl | rfl
    · exact settles_pure hleft
    · exact settles_pure hleft
  | cons c body =>
    refine settles_ask ?_
    simp only [List.mem_cons, not_or] at hbody
    obtain ⟨hc, hbody⟩ := hbody
    have hne : c ≠ 10 := fun heq ↦ hc heq.symm
    have hgoes {state' : UnescapeState} {buf' : Bytes}
        (h' : UnescapeLoop t more ia Q state' buf' body) :
        ia = ia ∧ ∃ body', 10 ∉ body' ∧ body'.length < (c :: body).length ∧
          body.map some ++ t :: more = body'.map some ++ t :: more ∧
            UnescapeLoop t more ia Q state' buf' body' :=
      ⟨rfl, body, hbody, by simp, rfl, h'⟩
    by_cases hs : state = .ESCAPE
    · subst hs
      simp only [id_eq, hne, ne_eq, not_true_eq_false, false_and, or_false, if_false]
      by_cases hsame : c = 92 ∨ c = 32
      · rw [if_pos hsame]
        exact settles_pure (hgoes (h.escaped (if_pos hsame)))
      · rw [if_neg hsame]
        by_cases hn : c = 110
        · rw [if_pos hn]
          refine settles_pure (hgoes (h.escaped ?_))
          rw [decodeByte, if_neg hsame, if_pos hn]
        · rw [if_neg hn]
          refine settles_raise (h.unknown ?_ _ _)
          rw [decodeByte, if_neg hsame, if_neg hn]
    · by_cases hsep : c = 32
      · subst hsep
        simp only [id_eq, hs, ne_eq, not_false_eq_true, and_self, or_true, if_true]
        exact settles_pure (h.separator hs)
      · by_cases hmark : c = 92
        · subst hmark
          cases state with
          | ESCAPE => exact absurd rfl hs
          | INIT => exact settles_pure (hgoes (h.mark hs))
          | ORDINAL => exact settles_pure (hgoes (h.mark hs))
        · have hnext := hgoes (h.ordinary hs hmark hsep)
          simp only [id_eq, hne, hsep, hmark, and_false, or_self, if_false]
          cases state with
          | ESCAPE => exact absurd rfl hs
          | INIT => exact settles_pure hnext
          | ORDINAL => exact settles_pure hnext

theorem settles_unescapeLoop
    {Q : Outcome Error (UnescapeState × Bytes × Option UInt8) → InputArchive →
      List (Option UInt8) → Prop} (hbody : 10 ∉ body) (ht : t = none ∨ t = some 10)
    (h : UnescapeLoop t more ia Q state buf body) :
    (Program.loop unescapeStep (state, buf)).Settles ia (body.map some ++ t :: more) Q := by
  refine Settles.loop (fun b s env ↦ s = ia ∧ ∃ body, 10 ∉ body ∧
    env = body.map some ++ t :: more ∧ UnescapeLoop t more ia Q b.1 b.2 body)
    ⟨rfl, body, hbody, rfl, h⟩ ?_
  intro b s env hI
  obtain ⟨state', buf'⟩ := b
  obtain ⟨rfl, body', hbody', rfl, h'⟩ := hI
  refine (settles_unescapeStep hbody' ht h').mono (fun o ia' rest hstep ↦ ?_)
  rcases o with (⟨state'', buf''⟩ | left) | e | _
  · obtain ⟨hia, body'', hbody'', hlt, rfl, h''⟩ := hstep
    exact ⟨⟨hia, body'', hbody'', rfl, h''⟩, by simp [hlt]⟩
  · exact hstep
  · exact hstep
  · exact hstep

/-- Reading a token off a line that ends with a newline or with the stream. A last token at
the end of the stream is read only if it has an escape. -/
theorem settles_unescape {Q : Outcome Error Bytes → InputArchive → List (Option UInt8) → Prop}
    (hbody : 10 ∉ body) (ht : t = none ∨ t = some 10) (hend : ia.end_ = false)
    (h : match escaping.first false [] body with
      | some (text, some rest) => Q (.returned text) ia (rest.map some ++ t :: more)
      | some (text, none) => if t = none ∧ 92 ∉ body then Q (.raised .endOfFileError) ia more
          else Q (.returned text) { ia with end_ := true } more
      | none => ∀ msg rest, Q (.raised (.abort msg)) ia rest) :
    unescape.Settles ia (body.map some ++ t :: more) Q := by
  refine settles_get_bind ?_
  simp only [hend, Bool.false_eq_true, if_false]
  refine Settles.bind (settles_unescapeLoop hbody ht ?_)
  have hinit : (UnescapeState.INIT = .ESCAPE) = False := by simp
  unfold UnescapeLoop
  simp only [hinit, decide_false]
  split
  · rename_i text rest hfirst
    rw [hfirst] at h
    intro state' hs'
    have hia : { ia with end_ := false } = ia := by rw [← hend]
    simp only [unescapeEnd, reduceCtorEq, false_and, if_false, if_neg hs', Option.some.injEq]
    refine (settles_modify ?_).bind
    refine settles_pure ?_
    simpa [hia] using h
  · rename_i text hfirst
    simp only [hfirst] at h
    intro state' hs' hstate
    simp only [unescapeEnd, hstate, true_and, if_neg hs']
    by_cases hlast : t = none ∧ 92 ∉ body
    · rw [if_pos hlast] at h ⊢
      exact settles_raise h
    · rw [if_neg hlast] at h ⊢
      refine (settles_modify ?_).bind
      rcases ht with rfl | rfl
      · exact settles_pure h
      · exact settles_pure h
  · rename_i hfirst
    rw [hfirst] at h
    refine ⟨h, fun buf' ↦ ?_⟩
    simp only [unescapeEnd, reduceCtorEq, and_false, if_false, if_true]
    exact settles_raise (h _ _)

end Unescape

section Load

variable {α : Type} {body : Bytes} {t : Option UInt8} {more : List (Option UInt8)}

theorem settles_load {parse : Bytes → Option α}
    {Q : Outcome Error α → InputArchive → List (Option UInt8) → Prop}
    (hbody : 10 ∉ body) (ht : t = none ∨ t = some 10)
    (hnext : ∀ text rest a, escaping.first false [] body = some (text, some rest) →
      parse text = some a → Q (.returned a) {} (rest.map some ++ t :: more))
    (hlast : ∀ text a, escaping.first false [] body = some (text, none) → parse text = some a →
      Q (.returned a) { end_ := true } more)
    (hraised : (∀ text rest a, escaping.first false [] body = some (text, rest) →
      parse text = some a → rest = none ∧ t = none) →
        ∀ e, (escaping.first false [] body = none → ∃ msg, e = .abort msg) →
          ∀ ia rest, Q (.raised e) ia rest) :
    (load parse).Settles {} (body.map some ++ t :: more) Q := by
  refine settles_get_bind ?_
  refine Settles.bind (settles_unescape hbody ht rfl ?_)
  have hbad {text : Bytes} {rest : Option Bytes}
      (hfirst : escaping.first false [] body = some (text, rest)) (hparse : parse text = none)
      (e : Error) (ia : InputArchive) (answers : List (Option UInt8)) :
      Q (.raised e) ia answers := by
    refine hraised (fun text' rest' a hfirst' ha ↦ ?_) e (fun hnone ↦ ?_) ia answers
    · rw [hfirst] at hfirst'
      cases hfirst'
      rw [hparse] at ha
      cases ha
    · rw [hfirst] at hnone
      cases hnone
  split
  · rename_i text rest hfirst
    cases hparse : parse text with
    | some a =>
      simp only [hparse]
      exact settles_pure (hnext text rest a hfirst hparse)
    | none =>
      simp only [hparse]
      exact settles_raise (hbad hfirst hparse _ _ _)
  · rename_i text hfirst
    split
    · rename_i hnone
      refine hraised (fun text' rest' a hfirst' ha ↦ ⟨?_, hnone.1⟩) _ (fun h ↦ ?_) _ _
      · rw [hfirst] at hfirst'
        cases hfirst'
        rfl
      · rw [hfirst] at h
        cases h
    · cases hparse : parse text with
      | some a =>
        simp only [hparse]
        exact settles_pure (hlast text a hfirst hparse)
      | none =>
        simp only [hparse]
        exact settles_raise (hbad hfirst hparse _ _ _)
  · rename_i hfirst
    refine fun msg _ ↦ hraised (fun text' rest' a hfirst' ha ↦ ?_) _ (fun _ ↦ ⟨msg, rfl⟩) _ _
    rw [hfirst] at hfirst'
    cases hfirst'

theorem settles_loadVector
    {Q : Outcome Error (List Bytes) → InputArchive → List (Option UInt8) → Prop}
    (hbody : 10 ∉ body) (ht : t = none ∨ t = some 10)
    (hreturned : ∀ texts, escaping.tokens body = some texts →
      Q (.returned texts) { end_ := true, last_ := true } more)
    (hraised : escaping.tokens body = none ∨ t = none →
      ∀ e, (t ≠ none → ∃ msg, e = .abort msg) → ∀ ia rest, Q (.raised e) ia rest) :
    loadVector.Settles {} (body.map some ++ t :: more) Q := by
  refine settles_get_bind ?_
  refine Settles.bind ?_
  refine Settles.loop (fun v ia env ↦
    (ia = {} ∧ ∃ line, 10 ∉ line ∧ env = line.map some ++ t :: more ∧
      escaping.tokens body = (escaping.tokens line).map (v ++ ·)) ∨
    ia = { end_ := true } ∧ env = more ∧ escaping.tokens body = some v)
    (.inl ⟨rfl, body, hbody, rfl, by simp⟩) ?_
  intro v ia env hI
  rcases hI with ⟨rfl, line, hline, rfl, htokens⟩ | ⟨rfl, rfl, htokens⟩
  · refine settles_get_bind ?_
    refine Settles.bind (settles_load hline ht ?_ ?_ ?_)
    · intro text rest a hfirst ha
      cases ha
      refine settles_pure ⟨.inl ⟨rfl, rest, ?_, rfl, ?_⟩, ?_⟩
      · exact fun hmem ↦ hline ((Escaping.first_suffix hfirst).subset hmem)
      · rw [htokens, Escaping.tokens_next hfirst, Option.map_map]
        congr 1
        funext texts
        simp
      · have hlt := Escaping.first_length hfirst
        simpa using hlt
    · intro text a hfirst ha
      cases ha
      refine settles_pure ⟨.inr ⟨rfl, rfl, ?_⟩, ?_⟩
      · rw [htokens, Escaping.tokens_last hfirst, Option.map_some]
      · simp
        omega
    · intro h e he
      cases hfirst : escaping.first false [] line with
      | none =>
        refine hraised (.inl ?_) e (fun _ ↦ he hfirst)
        rw [htokens, Escaping.tokens_none hfirst]
        rfl
      | some token =>
        have hnone := (h token.1 token.2 token.1 hfirst rfl).2
        exact hraised (.inr hnone) e (fun hne ↦ absurd hnone hne)
  · refine settles_get_bind ?_
    refine settles_pure ?_
    refine (settles_modify ?_).bind
    exact settles_pure (hreturned v htokens)

end Load

inductive Object where
  | command (command : Command)
  | result (result : Result)
deriving DecidableEq, Repr

inductive Receiver where
  | recvCommand
  | recvResult
deriving DecidableEq, Repr

def receive (casts : Casts) : Receiver → Reads Object
  | .recvCommand => do
    let command ← recvCommand casts
    pure (.command command)
  | .recvResult => do
    let result ← recvResult casts
    pure (.result result)

/-- A receive that returns: it is called on the stream `S` and leaves `S'` of it. -/
def Receives (casts : Casts) (S : Bytes) (x : Receiver × Object) (S' : Bytes) : Prop :=
  ((receive casts x.1).run {} (S.map some ++ [none])).outcome = .returned x.2 ∧
    S' = S.drop ((receive casts x.1).run {} (S.map some ++ [none])).trace.length

def nextLine (S : Bytes) : Bytes := S.takeWhile (· ≠ 10)

def afterLine (S : Bytes) : Bytes := S.drop ((nextLine S).length + 1)

/-- The object has all the tokens of the line, and the line no others. -/
def Represents (casts : Casts) (line : Bytes) : Object → Prop
  | .command command => ∃ type id, escaping.tokens line = some (type :: id :: command.args) ∧
      casts.type.parse type = some command.type ∧ casts.id.parse id = some command.id
  | .result result => ∃ name status, escaping.tokens line = some [name, result.data] ∧
      casts.status.parse name = some status ∧ status.val = result.status

/-- The line begins with the name of a status, a second token and one more separator. -/
def Overlong (casts : Casts) (line : Bytes) : Prop :=
  ∃ name rest data more status, escaping.first false [] line = some (name, some rest) ∧
    casts.status.parse name = some status ∧
      escaping.first false [] rest = some (data, some more)

theorem not_mem_nextLine (S : Bytes) : 10 ∉ nextLine S := by
  intro h
  simpa using List.mem_takeWhile_imp h

theorem nextLine_cases (S : Bytes) :
    S = nextLine S ++ 10 :: afterLine S ∨ S = nextLine S ∧ afterLine S = [] := by
  induction S with
  | nil => exact .inr ⟨rfl, rfl⟩
  | cons c S ih =>
    by_cases hc : c = 10
    · subst hc
      exact .inl rfl
    · have hline : nextLine (c :: S) = c :: nextLine S := by simp [nextLine, hc]
      have hafter : afterLine (c :: S) = afterLine S := by simp [afterLine, hline]
      rw [hline, hafter]
      rcases ih with h | ⟨h, hnil⟩
      · exact .inl (by rw [List.cons_append, ← h])
      · exact .inr ⟨by rw [← h], hnil⟩

theorem drop_offered {S rest : Bytes} {n : ℕ}
    (h : (S.map some ++ [none]).drop n = rest.map some ++ [none]) : S.drop n = rest := by
  rcases Nat.lt_or_ge S.length n with hlt | hle
  · rw [List.drop_eq_nil_of_le (by simp; omega)] at h
    simp at h
  · rw [List.drop_append_of_le_length (by simpa using hle)] at h
    have hmap := List.append_cancel_right h
    rw [← List.map_drop] at hmap
    exact List.map_injective_iff.mpr (Option.some_injective _) hmap

theorem offered_eq (S : Bytes) : ∃ t more, (t = none ∨ t = some 10) ∧
    S.map some ++ [none] = (nextLine S).map some ++ t :: more ∧
      ∀ n, (S.map some ++ [none]).drop n = more → S.drop n = afterLine S := by
  rcases nextLine_cases S with h | ⟨h, hnil⟩
  · refine ⟨some 10, (afterLine S).map some ++ [none], .inr rfl, ?_, fun n hn ↦ drop_offered hn⟩
    conv_lhs => rw [h]
    simp
  · refine ⟨none, [], .inl rfl, by rw [← h], fun n hn ↦ ?_⟩
    rw [List.drop_eq_nil_iff] at hn
    rw [hnil, List.drop_eq_nil_iff]
    simp only [List.length_append, List.length_map, List.length_singleton] at hn
    omega

section Receive

variable {casts : Casts} {body : Bytes} {t : Option UInt8} {more : List (Option UInt8)}

theorem settles_recvCommand
    {Q : Outcome Error Command → InputArchive → List (Option UInt8) → Prop}
    (hbody : 10 ∉ body) (ht : t = none ∨ t = some 10)
    (hreturned : ∀ command ia, Represents casts body (.command command) →
      Q (.returned command) ia more)
    (hraised : ∀ e ia rest, Q (.raised e) ia rest) :
    (recvCommand casts).Settles {} (body.map some ++ t :: more) Q := by
  refine Settles.bind (settles_load hbody ht ?_ ?_ (fun _ e _ ↦ hraised e))
  · intro type rest a hfirst ha
    have hrest : 10 ∉ rest := fun hmem ↦ hbody ((Escaping.first_suffix hfirst).subset hmem)
    have htokens := Escaping.tokens_next hfirst
    refine Settles.bind (settles_load hrest ht ?_ ?_ (fun _ e _ ↦ hraised e))
    · intro id rest' b hfirst' hb
      have hrest' : 10 ∉ rest' := fun hmem ↦ hrest ((Escaping.first_suffix hfirst').subset hmem)
      refine Settles.bind (settles_loadVector hrest' ht ?_ (fun _ e _ ↦ hraised e))
      intro args hargs
      refine settles_pure (hreturned _ _ ⟨type, id, ?_, ha, hb⟩)
      rw [htokens, Escaping.tokens_next hfirst', hargs]
      rfl
    · intro id b hfirst' hb
      refine Settles.bind (takes_loadVector_nil.settles ?_)
      refine settles_pure (hreturned _ _ ⟨type, id, ?_, ha, hb⟩)
      rw [htokens, Escaping.tokens_last hfirst']
      rfl
  · intro type a hfirst ha
    refine Settles.bind (settles_get_bind ?_)
    exact settles_raise (hraised _ _ _)

theorem settles_recvResult
    {Q : Outcome Error Result → InputArchive → List (Option UInt8) → Prop}
    (hbody : 10 ∉ body) (ht : t = none ∨ t = some 10)
    (hreturned : ∀ result ia, Represents casts body (.result result) →
      Q (.returned result) ia more)
    (hlong : Overlong casts body → ∀ result ia rest, Q (.returned result) ia rest)
    (hraised : ¬ Overlong casts body → ∀ e ia rest, Q (.raised e) ia rest) :
    (recvResult casts).Settles {} (body.map some ++ t :: more) Q := by
  refine Settles.bind (settles_load hbody ht ?_ ?_ ?_)
  · intro name rest status hfirst hs
    have hrest : 10 ∉ rest := fun hmem ↦ hbody ((Escaping.first_suffix hfirst).subset hmem)
    refine Settles.bind (settles_load hrest ht ?_ ?_ ?_)
    · intro data more' a hfirst' ha
      exact settles_pure (hlong ⟨name, rest, data, more', status, hfirst, hs, hfirst'⟩ _ _ _)
    · intro data a hfirst' ha
      cases ha
      refine settles_pure (hreturned _ _ ⟨name, status, ?_, hs, rfl⟩)
      rw [Escaping.tokens_next hfirst, Escaping.tokens_last hfirst']
      rfl
    · intro h e _
      refine hraised ?_ e
      intro hover
      obtain ⟨name', rest', data, more', status', hname, -, hdata⟩ := hover
      rw [hfirst] at hname
      cases hname
      have hnone := (h data (some more') data hdata rfl).1
      cases hnone
  · intro name status hfirst hs
    refine Settles.bind (settles_get_bind ?_)
    refine settles_raise (hraised ?_ _ _ _)
    intro hover
    obtain ⟨name', rest', data, more', status', hname, -, hdata⟩ := hover
    rw [hfirst] at hname
    cases hname
  · intro h e _
    refine hraised ?_ e
    intro hover
    obtain ⟨name', rest', data, more', status', hname, hs, -⟩ := hover
    have hnone := (h name' (some rest') status' hname hs).1
    cases hnone

theorem Overlong.not_represents (h : Overlong casts body) (result : Result) :
    ¬ Represents casts body (.result result) := by
  intro hr
  obtain ⟨name, rest, data, more, status, hfirst, -, hfirst'⟩ := h
  obtain ⟨name', status', htokens, -⟩ := hr
  rw [Escaping.tokens_next hfirst, Escaping.tokens_next hfirst', Option.map_map,
    Option.map_eq_some_iff] at htokens
  obtain ⟨texts, hmore, heq⟩ := htokens
  cases texts with
  | nil => exact Escaping.tokens_ne_nil hmore
  | cons text texts => simp at heq

theorem receives_line {S S' : Bytes} {x : Receiver × Object} (h : Receives casts S x S')
    (hx : x.1 = .recvResult → ¬ Overlong casts (nextLine S)) :
    S' = afterLine S ∧ Represents casts (nextLine S) x.2 := by
  obtain ⟨receiver, object⟩ := x
  obtain ⟨houtcome, rfl⟩ := h
  obtain ⟨t, more, ht, hoffered, hdrop⟩ := offered_eq S
  have hline := not_mem_nextLine S
  suffices key : (receive casts receiver).Settles {} (S.map some ++ [none]) (fun o _ rest ↦
      ∀ object, o = .returned object → rest = more ∧ Represents casts (nextLine S) object) by
    obtain ⟨hrest, hrep⟩ := key.2 object houtcome
    exact ⟨hdrop _ hrest, hrep⟩
  rw [hoffered]
  cases receiver with
  | recvCommand =>
    refine Settles.bind (settles_recvCommand hline ht ?_ ?_)
    · intro command ia hrep
      refine settles_pure (fun object ho ↦ ?_)
      cases ho
      exact ⟨rfl, hrep⟩
    · exact fun e ia rest object ho ↦ by cases ho
  | recvResult =>
    refine Settles.bind (settles_recvResult hline ht ?_ ?_ ?_)
    · intro result ia hrep
      refine settles_pure (fun object ho ↦ ?_)
      cases ho
      exact ⟨rfl, hrep⟩
    · exact fun hover ↦ absurd hover (hx rfl)
    · exact fun _ e ia rest object ho ↦ by cases ho

theorem receives_overlong {S : Bytes} (h : Overlong casts (nextLine S)) :
    ∃ result S', Receives casts S (.recvResult, .result result) S' := by
  obtain ⟨t, more, ht, hoffered, -⟩ := offered_eq S
  have key : (receive casts .recvResult).Settles {} (S.map some ++ [none]) (fun o _ _ ↦
      ∃ result, o = .returned (.result result)) := by
    rw [hoffered]
    refine Settles.bind (settles_recvResult (not_mem_nextLine S) ht ?_ ?_ ?_)
    · exact fun result ia hrep ↦ absurd hrep (h.not_represents result)
    · exact fun _ result ia rest ↦ settles_pure ⟨result, rfl⟩
    · exact fun hover ↦ absurd h hover
  obtain ⟨result, hresult⟩ := key.2
  exact ⟨result, _, hresult, rfl⟩

end Receive

/-- A receive that returns has taken one whole line, and all of it, unless it is a `Result`
that is followed by more tokens. After receives of other lines the objects and the lines
correspond. -/
theorem receives_whole_line_iff (casts : Casts) :
    (∀ S receiver, (∀ object S', Receives casts S (receiver, object) S' →
      S' = afterLine S ∧ Represents casts (nextLine S) object) ↔
        (receiver = .recvResult → ¬ Overlong casts (nextLine S))) ∧
    ∀ S h S', Path (fun S x S' ↦ Receives casts S x S' ∧
        (x.1 = .recvResult → ¬ Overlong casts (nextLine S))) S h S' →
      ∃ lines, Path (fun S line S' ↦ line = nextLine S ∧ S' = afterLine S) S lines S' ∧
        List.Forall₂ (Represents casts) lines (h.map (·.2)) := by
  refine ⟨fun S receiver ↦ ⟨?_, ?_⟩, ?_⟩
  · intro h hreceiver hover
    subst hreceiver
    obtain ⟨result, S', hreceives⟩ := receives_overlong hover
    exact hover.not_represents result (h _ _ hreceives).2
  · exact fun hreceiver object S' h ↦ receives_line h hreceiver
  · intro S h S' hpath
    induction hpath with
    | nil S => exact ⟨[], .nil S, .nil⟩
    | cons hstep hpath ih =>
      obtain ⟨lines, hlines, hobjects⟩ := ih
      obtain ⟨hafter, hrep⟩ := receives_line hstep.1 hstep.2
      exact ⟨_ :: lines, .cons ⟨rfl, hafter⟩ hlines, .cons hrep hobjects⟩

/-- Of the lines `OK a b` and `OK c` the first receive leaves `b`. -/
theorem result_leaves_tokens :
    Receives decimalCasts [79, 75, 32, 97, 32, 98, 10, 79, 75, 32, 99, 10]
      (.recvResult, .result ⟨.OK, [97]⟩) [98, 10, 79, 75, 32, 99, 10] ∧
    afterLine [79, 75, 32, 97, 32, 98, 10, 79, 75, 32, 99, 10] = [79, 75, 32, 99, 10] := by
  refine ⟨⟨?_, ?_⟩, ?_⟩
  · cbv
  · cbv
  · decide

end FlowctlGame.BrokerTextInterface
