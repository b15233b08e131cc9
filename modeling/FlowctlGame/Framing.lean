import FlowctlGame.Lines

namespace FlowctlGame.BrokerTextInterface

open Broker BrokerInterface Interaction Program Text

def saveVector (texts : List Bytes) : Except Error Bytes := do
  let oa ← ({} : OutputArchive).putVector texts
  pure oa.close

def offeredLine (line : Bytes) (more : List (Option UInt8)) : List (Option UInt8) :=
  (line ++ [10]).map some ++ more

variable {line : Bytes} {texts : List Bytes}

theorem escaping_canonical : escaping.Canonical := by
  intro x c h
  have hdecode : decodeByte x = some c := h
  unfold decodeByte at hdecode
  split at hdecode
  · rename_i hx
    cases hdecode
    rcases hx with rfl | rfl
    · rfl
    · rfl
  · split at hdecode
    · rename_i hx
      cases hdecode
      subst hx
      rfl
    · cases hdecode

theorem escaping_plain (h : 10 ∉ line) : escaping.Plain line := by
  intro c hc hsep hmark
  have hne : c ≠ 10 := fun heq ↦ h (heq ▸ hc)
  have hsep' : c ≠ 32 := hsep
  have hmark' : c ≠ 92 := hmark
  simp [escaping, escapeByte, hsep', hmark', hne]

theorem saveVector_eq (h : texts ≠ []) : saveVector texts = .ok (escaping.join texts ++ [10]) := by
  cases texts with
  | nil => exact absurd rfl h
  | cons text texts =>
    simp only [saveVector, OutputArchive.putVector, OutputArchive.putAll, OutputArchive.put,
      OutputArchive.print, bind, Except.bind, if_true, if_false, Bool.false_eq_true, putAll_eq]
    simp [pure, Except.pure, OutputArchive.close, join_cons]

theorem settles_vectorLine (more : List (Option UInt8)) (hline : 10 ∉ line) :
    loadVector.Settles {} (offeredLine line more) (fun o _ rest ↦
      (∀ texts, escaping.tokens line = some texts → o = .returned texts ∧ rest = more) ∧
        (escaping.tokens line = none → ∃ msg, o = .raised (.abort msg))) := by
  have heq : offeredLine line more = line.map some ++ some 10 :: more := by simp [offeredLine]
  rw [heq]
  refine settles_loadVector hline (.inr rfl) ?_ ?_
  · intro texts htokens
    rw [htokens]
    refine ⟨fun texts' h ↦ ?_, fun h ↦ by cases h⟩
    cases h
    exact ⟨rfl, rfl⟩
  · intro htokens e he ia rest
    rw [htokens.resolve_right (fun h ↦ by cases h)]
    obtain ⟨msg, rfl⟩ := he (fun h ↦ by cases h)
    exact ⟨(fun _ h ↦ by cases h), fun _ ↦ ⟨msg, rfl⟩⟩

theorem vectorLine_tokens (more : List (Option UInt8)) (hline : 10 ∉ line)
    (h : escaping.tokens line = some texts) :
    (loadVector.run {} (offeredLine line more)).outcome = .returned texts ∧
      (loadVector.run {} (offeredLine line more)).trace.length = line.length + 1 := by
  obtain ⟨houtcome, hrest⟩ := (settles_vectorLine more hline).2.1 texts h
  refine ⟨houtcome, ?_⟩
  have hlen := congrArg List.length hrest
  have hwithin := loadVector.within {} (offeredLine line more)
  simp only [offeredLine, List.length_drop, List.length_append, List.length_map,
    List.length_singleton] at hlen hwithin ⊢
  omega

theorem vectorLine_abort (more : List (Option UInt8)) (hline : 10 ∉ line)
    (h : escaping.tokens line = none) :
    ∃ msg, (loadVector.run {} (offeredLine line more)).outcome = .raised (.abort msg) :=
  (settles_vectorLine more hline).2.2 h

theorem saveVector_tokens (hline : 10 ∉ line) (h : escaping.tokens line = some texts) :
    texts ≠ [] ∧ saveVector texts = .ok (line ++ [10]) := by
  have hne : texts ≠ [] := by
    rintro rfl
    exact Escaping.tokens_ne_nil h
  have hjoin := Escaping.join_tokens escaping_canonical (escaping_plain hline) h
  exact ⟨hne, by rw [saveVector_eq hne, hjoin]⟩

theorem saveVector_of_returned {more : List (Option UInt8)} (hline : 10 ∉ line)
    (h : (loadVector.run {} (offeredLine line more)).outcome = .returned texts) :
    saveVector texts = .ok (line ++ [10]) := by
  cases htokens : escaping.tokens line with
  | none =>
    obtain ⟨msg, hmsg⟩ := vectorLine_abort more hline htokens
    rw [h] at hmsg
    cases hmsg
  | some texts' =>
    have houtcome := (vectorLine_tokens more hline htokens).1
    rw [h] at houtcome
    cases houtcome
    exact (saveVector_tokens hline htokens).2

/-- Lines and lists of tokens correspond one to one: a line is refused just for an unknown or
unfinished escape, any other line is the encoding of its tokens, and the encoding of a list is
one line with these tokens. -/
theorem lines_are_tokens :
    (∀ line more, 10 ∉ line →
      ((∃ msg, (loadVector.run {} (offeredLine line more)).outcome = .raised (.abort msg)) ↔
        escaping.Misescaped line) ∧
      (¬ escaping.Misescaped line → ∃ texts, texts ≠ [] ∧
        (loadVector.run {} (offeredLine line more)).outcome = .returned texts ∧
        (loadVector.run {} (offeredLine line more)).trace.length = line.length + 1 ∧
        saveVector texts = .ok (line ++ [10]))) ∧
    (∀ texts, texts ≠ [] → ∃ line, 10 ∉ line ∧ saveVector texts = .ok (line ++ [10]) ∧
      ∀ more, (loadVector.run {} (offeredLine line more)).outcome = .returned texts ∧
        (loadVector.run {} (offeredLine line more)).trace.length = line.length + 1) ∧
    ∀ line line' more more' texts, 10 ∉ line → 10 ∉ line' →
      (loadVector.run {} (offeredLine line more)).outcome = .returned texts →
      (loadVector.run {} (offeredLine line' more')).outcome = .returned texts → line = line' := by
  refine ⟨fun line more hline ↦ ?_, fun texts hne ↦ ?_, ?_⟩
  · rw [← Escaping.tokens_eq_none_iff]
    cases htokens : escaping.tokens line with
    | none =>
      exact ⟨⟨fun _ ↦ rfl, fun _ ↦ vectorLine_abort more hline htokens⟩, fun h ↦ absurd rfl h⟩
    | some texts =>
      obtain ⟨houtcome, hlen⟩ := vectorLine_tokens more hline htokens
      obtain ⟨hne, hsave⟩ := saveVector_tokens hline htokens
      refine ⟨⟨fun h ↦ ?_, fun h ↦ by cases h⟩, fun _ ↦ ⟨texts, hne, houtcome, hlen, hsave⟩⟩
      obtain ⟨msg, hmsg⟩ := h
      rw [houtcome] at hmsg
      cases hmsg
  · have hline := not_mem_join texts
    refine ⟨escaping.join texts, hline, saveVector_eq hne, fun more ↦ ?_⟩
    exact vectorLine_tokens more hline (Escaping.tokens_join hne)
  · intro line line' more more' texts hline hline' h h'
    have hsave := (saveVector_of_returned hline h).symm.trans (saveVector_of_returned hline' h')
    simpa using hsave

end FlowctlGame.BrokerTextInterface
