import Mathlib.Data.List.Basic

namespace FlowctlGame.Text

/-- How texts are put on one line: a `separator` stands between them, and a `mark` gives the
symbol after it another meaning. -/
structure Escaping (α : Type) where
  separator : α
  mark : α
  separator_ne_mark : separator ≠ mark
  encode : α → List α
  decode : α → Option α
  encode_cases : ∀ c, (∃ x, encode c = [mark, x] ∧ decode x = some c) ∨
    encode c = [c] ∧ c ≠ separator ∧ c ≠ mark

namespace Escaping

variable {α : Type} [DecidableEq α] (e : Escaping α)

/-- The first token of a line, and what follows the separator after it, if there is one. The
token has begun with `buf`, and with `escaped` the symbol before was a mark. -/
def first (escaped : Bool) (buf : List α) : List α → Option (List α × Option (List α))
  | [] => if escaped then none else some (buf, none)
  | c :: line =>
    if escaped then (e.decode c).bind (fun d ↦ first false (buf ++ [d]) line)
    else if c = e.mark then first true buf line
    else if c = e.separator then some (buf, some line)
    else first false (buf ++ [c]) line

def tokensFrom (escaped : Bool) (buf : List α) : List α → Option (List (List α))
  | [] => if escaped then none else some [buf]
  | c :: line =>
    if escaped then (e.decode c).bind (fun d ↦ tokensFrom false (buf ++ [d]) line)
    else if c = e.mark then tokensFrom true buf line
    else if c = e.separator then (tokensFrom false [] line).map (buf :: ·)
    else tokensFrom false (buf ++ [c]) line

/-- The tokens of a line, unless it has an unknown escape or ends with a mark. -/
def tokens (line : List α) : Option (List (List α)) := e.tokensFrom false [] line

def encodeText (text : List α) : List α := text.flatMap e.encode

def join : List (List α) → List α
  | [] => []
  | [text] => e.encodeText text
  | text :: texts => e.encodeText text ++ e.separator :: join texts

variable {e} {line rest buf text : List α} {escaped : Bool}

theorem tokensFrom_eq :
    e.tokensFrom escaped buf line =
      match e.first escaped buf line with
      | none => none
      | some (text, none) => some [text]
      | some (text, some rest) => (e.tokens rest).map (text :: ·) := by
  induction line generalizing escaped buf with
  | nil => cases escaped <;> rfl
  | cons c line ih =>
    simp only [tokensFrom, first]
    split_ifs
    · cases e.decode c with
      | none => rfl
      | some d => exact ih
    · exact ih
    · rfl
    · exact ih

theorem first_length (h : e.first escaped buf line = some (text, some rest)) :
    rest.length < line.length := by
  induction line generalizing escaped buf with
  | nil => cases escaped <;> simp [first] at h
  | cons c line ih =>
    simp only [first] at h
    rw [List.length_cons]
    split_ifs at h
    · obtain ⟨d, -, hd⟩ := Option.bind_eq_some_iff.mp h
      exact Nat.lt_succ_of_lt (ih hd)
    · exact Nat.lt_succ_of_lt (ih h)
    · cases h
      exact Nat.lt_succ_self _
    · exact Nat.lt_succ_of_lt (ih h)

theorem tokens_next (h : e.first false [] line = some (text, some rest)) :
    e.tokens line = (e.tokens rest).map (text :: ·) := by
  rw [tokens, tokensFrom_eq, h]

theorem tokens_last (h : e.first false [] line = some (text, none)) :
    e.tokens line = some [text] := by
  rw [tokens, tokensFrom_eq, h]

theorem tokens_none (h : e.first false [] line = none) : e.tokens line = none := by
  rw [tokens, tokensFrom_eq, h]

theorem tokens_ne_nil : e.tokens line ≠ some [] := by
  rw [tokens, tokensFrom_eq]
  cases e.first false [] line with
  | none => simp
  | some token =>
    obtain ⟨text, rest⟩ := token
    cases rest with
    | none => simp
    | some rest => simp

theorem first_suffix (h : e.first escaped buf line = some (text, some rest)) : rest <:+ line := by
  induction line generalizing escaped buf with
  | nil => cases escaped <;> simp [first] at h
  | cons c line ih =>
    simp only [first] at h
    split_ifs at h
    · obtain ⟨d, -, hd⟩ := Option.bind_eq_some_iff.mp h
      exact (ih hd).trans (List.suffix_cons _ _)
    · exact (ih h).trans (List.suffix_cons _ _)
    · cases h
      exact List.suffix_cons _ _
    · exact (ih h).trans (List.suffix_cons _ _)

theorem tokensFrom_encode (text : List α) :
    e.tokensFrom false buf (e.encodeText text ++ line) = e.tokensFrom false (buf ++ text) line := by
  induction text generalizing buf with
  | nil => simp [encodeText]
  | cons c text ih =>
    have hcons : e.encodeText (c :: text) = e.encode c ++ e.encodeText text := by
      simp [encodeText]
    have happ : buf ++ c :: text = buf ++ [c] ++ text := by simp
    rw [hcons, happ, ← ih]
    rcases e.encode_cases c with ⟨x, hx, hd⟩ | ⟨hx, hs, hm⟩
    · simp [hx, tokensFrom, hd]
    · simp [hx, tokensFrom, hs, hm]

theorem tokens_join {texts : List (List α)} (h : texts ≠ []) :
    e.tokens (e.join texts) = some texts := by
  induction texts with
  | nil => exact absurd rfl h
  | cons text texts ih =>
    cases texts with
    | nil =>
      have htext : e.tokensFrom false [] (e.encodeText text ++ []) =
          e.tokensFrom false ([] ++ text) [] := tokensFrom_encode text
      simpa [tokens, join, tokensFrom] using htext
    | cons next texts =>
      have hnext := ih (by simp)
      have hjoin : e.join (text :: next :: texts) =
          e.encodeText text ++ e.separator :: e.join (next :: texts) := rfl
      rw [tokens] at hnext ⊢
      rw [hjoin, tokensFrom_encode]
      simp [tokensFrom, e.separator_ne_mark, hnext]

omit [DecidableEq α] in
theorem encodeText_append (text text' : List α) :
    e.encodeText (text ++ text') = e.encodeText text ++ e.encodeText text' := by
  simp [encodeText]

omit [DecidableEq α] in
theorem encodeText_singleton (c : α) : e.encodeText [c] = e.encode c := by
  simp [encodeText]

variable {texts : List (List α)} {c : α}

section Canonical

/-- Every escape is the one that the encoding uses. -/
def Canonical (e : Escaping α) : Prop := ∀ x c, e.decode x = some c → e.encode c = [e.mark, x]

/-- The symbols of a line stand for themselves, a separator and a mark aside. -/
def Plain (e : Escaping α) (line : List α) : Prop :=
  ∀ c ∈ line, c ≠ e.separator → c ≠ e.mark → e.encode c = [c]

theorem first_spec (hc : e.Canonical) (hline : e.Plain line) (escaped : Bool) (buf : List α) :
    match e.first escaped buf line with
    | some (text, some rest) =>
      e.encodeText buf ++ (if escaped then e.mark :: line else line) =
        e.encodeText text ++ e.separator :: rest
    | some (text, none) =>
      e.encodeText buf ++ (if escaped then e.mark :: line else line) = e.encodeText text
    | none => ∃ text rest, e.encodeText buf ++ (if escaped then e.mark :: line else line) =
        e.encodeText text ++ e.mark :: rest ∧ ∀ x ∈ rest.head?, e.decode x = none := by
  induction line generalizing escaped buf with
  | nil =>
    cases escaped with
    | false => simp [first]
    | true => exact ⟨buf, [], rfl, by simp⟩
  | cons c line ih =>
    obtain ⟨hplain, hline⟩ := List.forall_mem_cons.mp hline
    cases escaped with
    | true =>
      cases hd : e.decode c with
      | none =>
        simp only [first, if_true, hd, Option.bind_none]
        exact ⟨buf, c :: line, rfl, by simpa using hd⟩
      | some d =>
        have hnext := ih hline false (buf ++ [d])
        have henc : e.encodeText (buf ++ [d]) ++ line =
            e.encodeText buf ++ e.mark :: c :: line := by
          rw [encodeText_append, encodeText_singleton, hc c d hd]
          simp
        simp only [Bool.false_eq_true, if_false, henc] at hnext
        simpa only [first, if_true, hd, Option.bind_some] using hnext
    | false =>
      simp only [first, Bool.false_eq_true, if_false]
      by_cases hmark : c = e.mark
      · rw [if_pos hmark, hmark]
        simpa using ih hline true buf
      · rw [if_neg hmark]
        by_cases hsep : c = e.separator
        · rw [if_pos hsep, hsep]
        · have hnext := ih hline false (buf ++ [c])
          have henc : e.encodeText (buf ++ [c]) ++ line = e.encodeText buf ++ c :: line := by
            rw [encodeText_append, encodeText_singleton, hplain hsep hmark]
            simp
          simp only [Bool.false_eq_true, if_false, henc] at hnext
          rw [if_neg hsep]
          exact hnext

theorem first_some (hc : e.Canonical) (hline : e.Plain line)
    (h : e.first false [] line = some (text, some rest)) :
    line = e.encodeText text ++ e.separator :: rest := by
  have hspec := first_spec hc hline false []
  rw [h] at hspec
  exact hspec

theorem first_last (hc : e.Canonical) (hline : e.Plain line)
    (h : e.first false [] line = some (text, none)) : line = e.encodeText text := by
  have hspec := first_spec hc hline false []
  rw [h] at hspec
  exact hspec

theorem first_none (hc : e.Canonical) (hline : e.Plain line) (h : e.first false [] line = none) :
    ∃ text rest, line = e.encodeText text ++ e.mark :: rest ∧
      ∀ x ∈ rest.head?, e.decode x = none := by
  have hspec := first_spec hc hline false []
  rw [h] at hspec
  exact hspec

theorem join_tokens (hc : e.Canonical) (hline : e.Plain line) (h : e.tokens line = some texts) :
    e.join texts = line := by
  induction hlen : line.length using Nat.strongRecOn generalizing line texts with
  | _ n ih =>
    cases hfirst : e.first false [] line with
    | none =>
      rw [tokens_none hfirst] at h
      cases h
    | some token =>
      obtain ⟨text, rest⟩ := token
      cases rest with
      | none =>
        rw [tokens_last hfirst] at h
        cases h
        exact (first_last hc hline hfirst).symm
      | some rest =>
        rw [tokens_next hfirst, Option.map_eq_some_iff] at h
        obtain ⟨texts', hrest, rfl⟩ := h
        have hlt := first_length hfirst
        have hplain : e.Plain rest := fun c hmem ↦ hline c ((first_suffix hfirst).subset hmem)
        have hjoin := ih rest.length (by omega) hplain hrest rfl
        rw [first_some hc hline hfirst, ← hjoin]
        cases texts' with
        | nil => exact absurd hrest tokens_ne_nil
        | cons next texts' => rfl

end Canonical

section Misescaped

/-- Whether a symbol after `line` has the meaning that a mark gives it. -/
def escapes (e : Escaping α) (escaped : Bool) (line : List α) : Bool :=
  line.foldl (fun escaped c ↦ !escaped && decide (c = e.mark)) escaped

/-- A mark that is not escaped itself is not followed by a symbol that has a meaning there. -/
def Misescaped (e : Escaping α) (line : List α) : Prop :=
  ∃ before after, line = before ++ e.mark :: after ∧ e.escapes false before = false ∧
    ∀ x ∈ after.head?, e.decode x = none

theorem misescaped_mark_cons :
    e.Misescaped (e.mark :: c :: line) ↔ e.decode c = none ∨ e.Misescaped line := by
  constructor
  · intro h
    obtain ⟨before, after, heq, hescapes, hafter⟩ := h
    cases before with
    | nil =>
      cases heq
      exact .inl (hafter c rfl)
    | cons b before =>
      simp only [List.cons_append, List.cons.injEq] at heq
      obtain ⟨rfl, heq⟩ := heq
      cases before with
      | nil => simp [escapes] at hescapes
      | cons b' before =>
        simp only [List.cons_append, List.cons.injEq] at heq
        obtain ⟨rfl, heq⟩ := heq
        exact .inr ⟨before, after, heq, by simpa [escapes] using hescapes, hafter⟩
  · intro h
    rcases h with hnone | ⟨before, after, rfl, hescapes, hafter⟩
    · exact ⟨[], c :: line, rfl, rfl, by simpa using hnone⟩
    · exact ⟨e.mark :: c :: before, after, rfl, by simpa [escapes] using hescapes, hafter⟩

theorem misescaped_mark : e.Misescaped [e.mark] := ⟨[], [], rfl, rfl, by simp⟩

theorem misescaped_cons (h : c ≠ e.mark) : e.Misescaped (c :: line) ↔ e.Misescaped line := by
  constructor
  · intro hmis
    obtain ⟨before, after, heq, hescapes, hafter⟩ := hmis
    cases before with
    | nil =>
      cases heq
      exact absurd rfl h
    | cons b before =>
      simp only [List.cons_append, List.cons.injEq] at heq
      obtain ⟨rfl, heq⟩ := heq
      exact ⟨before, after, heq, by simpa [escapes, h] using hescapes, hafter⟩
  · intro hmis
    obtain ⟨before, after, rfl, hescapes, hafter⟩ := hmis
    exact ⟨c :: before, after, rfl, by simpa [escapes, h] using hescapes, hafter⟩

theorem not_misescaped_nil : ¬ e.Misescaped ([] : List α) := by
  intro h
  obtain ⟨before, after, heq, -⟩ := h
  simp at heq

theorem tokensFrom_eq_none_iff (escaped : Bool) (buf : List α) :
    e.tokensFrom escaped buf line = none ↔
      e.Misescaped (if escaped then e.mark :: line else line) := by
  induction line generalizing escaped buf with
  | nil =>
    cases escaped with
    | false => simp [tokensFrom, not_misescaped_nil]
    | true => simp [tokensFrom, misescaped_mark]
  | cons c line ih =>
    cases escaped with
    | true =>
      simp only [tokensFrom, if_true, misescaped_mark_cons]
      cases hd : e.decode c with
      | none => simp
      | some d => simpa using ih false (buf ++ [d])
    | false =>
      simp only [tokensFrom, Bool.false_eq_true, if_false]
      by_cases hmark : c = e.mark
      · subst hmark
        simpa using ih true buf
      · rw [if_neg hmark, misescaped_cons hmark]
        by_cases hsep : c = e.separator
        · rw [if_pos hsep, Option.map_eq_none_iff]
          exact ih false _
        · rw [if_neg hsep]
          exact ih false _

theorem tokens_eq_none_iff : e.tokens line = none ↔ e.Misescaped line :=
  tokensFrom_eq_none_iff false []

end Misescaped

section Raws

def rawsFrom (e : Escaping α) (escaped : Bool) (raw : List α) : List α → List (List α)
  | [] => [raw]
  | c :: line =>
    if escaped then rawsFrom e false (raw ++ [c]) line
    else if c = e.mark then rawsFrom e true (raw ++ [c]) line
    else if c = e.separator then raw :: rawsFrom e false [] line
    else rawsFrom e false (raw ++ [c]) line

/-- The texts between the separators of a line, their escapes left as they are. -/
def raws (e : Escaping α) (line : List α) : List (List α) := e.rawsFrom false [] line

theorem rawsFrom_encodeText (text raw line : List α) :
    e.rawsFrom false raw (e.encodeText text ++ line) =
      e.rawsFrom false (raw ++ e.encodeText text) line := by
  induction text generalizing raw with
  | nil => simp [encodeText]
  | cons c text ih =>
    have hcons : e.encodeText (c :: text) = e.encode c ++ e.encodeText text := by
      simp [encodeText]
    rw [hcons, ← List.append_assoc raw, ← ih]
    rcases e.encode_cases c with ⟨x, hx, -⟩ | ⟨hx, hsep, hmark⟩
    · simp [hx, rawsFrom]
    · simp [hx, rawsFrom, hsep, hmark]

theorem rawsFrom_head (escaped : Bool) (raw line : List α) :
    ∃ more raws, e.rawsFrom escaped raw line = (raw ++ more) :: raws := by
  induction line generalizing escaped raw with
  | nil => exact ⟨[], [], by simp [rawsFrom]⟩
  | cons c line ih =>
    have hnext (escaped : Bool) :
        ∃ more raws, e.rawsFrom escaped (raw ++ [c]) line = (raw ++ more) :: raws := by
      obtain ⟨more, raws, h⟩ := ih escaped (raw ++ [c])
      exact ⟨c :: more, raws, by rw [h]; simp⟩
    unfold rawsFrom
    split_ifs
    · exact hnext false
    · exact hnext true
    · exact ⟨[], _, by rw [List.append_nil]⟩
    · exact hnext false

theorem raws_encodeText (text : List α) : e.raws (e.encodeText text) = [e.encodeText text] := by
  have h := rawsFrom_encodeText (e := e) text [] []
  rwa [List.append_nil] at h

theorem raws_separator (text rest : List α) :
    e.raws (e.encodeText text ++ e.separator :: rest) = e.encodeText text :: e.raws rest := by
  rw [raws, rawsFrom_encodeText]
  simp [rawsFrom, e.separator_ne_mark, raws]

theorem raws_unfinished (text : List α) :
    e.raws (e.encodeText text ++ [e.mark]) = [e.encodeText text ++ [e.mark]] := by
  rw [raws, rawsFrom_encodeText]
  simp [rawsFrom]

theorem raws_mark (text rest : List α) (x : α) :
    ∃ more raws, e.raws (e.encodeText text ++ e.mark :: x :: rest) =
      (e.encodeText text ++ e.mark :: x :: more) :: raws := by
  obtain ⟨more, raws, h⟩ := rawsFrom_head (e := e) false (e.encodeText text ++ [e.mark, x]) rest
  refine ⟨more, raws, ?_⟩
  rw [Escaping.raws, rawsFrom_encodeText]
  simpa [rawsFrom] using h

/-- A line is cut into whole tokens and a rest that is the last token or begins with a token
that cannot be read. -/
theorem raws_cases (hc : e.Canonical) (hline : e.Plain line) :
    ∃ (texts : List (List α)) (tail : List α),
      line = texts.flatMap (fun text ↦ e.encodeText text ++ [e.separator]) ++ tail ∧
      e.raws line = texts.map e.encodeText ++ e.raws tail ∧
      ((∃ last, tail = e.encodeText last) ∨ ∃ text rest,
        tail = e.encodeText text ++ e.mark :: rest ∧ ∀ x ∈ rest.head?, e.decode x = none) := by
  induction hlen : line.length using Nat.strongRecOn generalizing line with
  | _ n ih =>
    cases hfirst : e.first false [] line with
    | none => exact ⟨[], line, rfl, rfl, .inr (first_none hc hline hfirst)⟩
    | some token =>
      obtain ⟨text, rest⟩ := token
      cases rest with
      | none => exact ⟨[], line, rfl, rfl, .inl ⟨text, first_last hc hline hfirst⟩⟩
      | some rest =>
        have hlt := first_length hfirst
        have hplain : e.Plain rest := fun c hmem ↦ hline c ((first_suffix hfirst).subset hmem)
        obtain ⟨texts, tail, heq, hraws, htail⟩ := ih rest.length (by omega) hplain rfl
        have hsome := first_some hc hline hfirst
        refine ⟨text :: texts, tail, ?_, ?_, htail⟩
        · rw [hsome]
          simp [← heq]
        · rw [hsome, raws_separator, hraws]
          rfl

theorem escapes_encodeText (text : List α) : e.escapes false (e.encodeText text) = false := by
  induction text with
  | nil => rfl
  | cons c text ih =>
    have hcons : e.encodeText (c :: text) = e.encode c ++ e.encodeText text := by
      simp [encodeText]
    rw [hcons]
    rcases e.encode_cases c with ⟨x, hx, -⟩ | ⟨hx, -, hmark⟩
    · simpa [hx, escapes] using ih
    · simpa [hx, escapes, hmark] using ih

theorem encodeText_ne {text text' rest : List α} (h : ∀ x ∈ rest.head?, e.decode x = none) :
    e.encodeText text' ≠ e.encodeText text ++ e.mark :: rest := by
  intro heq
  have hmis : e.Misescaped (e.encodeText text') :=
    ⟨e.encodeText text, rest, heq, escapes_encodeText text, h⟩
  have htokens := @tokensFrom_encode _ _ e [] [] text'
  rw [List.append_nil] at htokens
  rw [← tokens_eq_none_iff, tokens, htokens] at hmis
  cases hmis

end Raws

end Escaping

end FlowctlGame.Text
