import Mathlib

namespace FlowctlGame.Text

variable {α β : Type}

/-- A way to print the values of a type from which they can be read back. -/
structure Cast (α : Type) where
  print : α → List UInt8
  parse : List UInt8 → Option α
  parse_print : ∀ a, parse (print a) = some a

theorem Cast.print_injective (c : Cast α) : Function.Injective c.print := by
  intro a b h
  have hab := congrArg c.parse h
  rw [c.parse_print, c.parse_print] at hab
  exact Option.some.inj hab

def text : Cast (List UInt8) where
  print := id
  parse := some
  parse_print _ := rfl

/-- Print the values of `β` as values of `α`. -/
def Cast.through (c : Cast α) (f : β → α) (g : α → Option β) (h : ∀ b, g (f b) = some b) :
    Cast β where
  print b := c.print (f b)
  parse text := (c.parse text).bind g
  parse_print b := by rw [c.parse_print, Option.bind_some, h]

def Cast.named (values : List α) (name : α → List UInt8)
    (h : ∀ a, values.find? (fun b ↦ name b = name a) = some a) : Cast α where
  print := name
  parse text := values.find? (fun b ↦ name b = text)
  parse_print := h

def printDigits (n : ℕ) : List UInt8 := (Nat.toDigits 10 n).map (fun c ↦ UInt8.ofNat c.toNat)

def parseDigits (text : List UInt8) : Option ℕ :=
  if text ≠ [] ∧ ∀ b ∈ text, 48 ≤ b.toNat ∧ b.toNat ≤ 57 then
    some (text.foldl (fun n b ↦ 10 * n + (b.toNat - 48)) 0)
  else none

theorem digit_bounds {c : Char} (h : c.isDigit) : 48 ≤ c.toNat ∧ c.toNat ≤ 57 := by
  simp only [Char.isDigit, Bool.and_eq_true, decide_eq_true_eq] at h
  exact ⟨UInt32.le_iff_toNat_le.mp h.1, UInt32.le_iff_toNat_le.mp h.2⟩

theorem digit_toNat {c : Char} (h : c.isDigit) : (UInt8.ofNat c.toNat).toNat = c.toNat := by
  have hc := digit_bounds h
  exact UInt8.toNat_ofNat_of_lt' (Nat.lt_of_le_of_lt hc.2 (by decide))

theorem isDigit_of_mem {n : ℕ} {c : Char} (h : c ∈ Nat.toDigits 10 n) : c.isDigit :=
  Nat.isDigit_of_mem_toDigits (by decide) (by decide) h

theorem mem_printDigits {n : ℕ} {b : UInt8} (h : b ∈ printDigits n) :
    48 ≤ b.toNat ∧ b.toNat ≤ 57 := by
  obtain ⟨c, hc, rfl⟩ := List.mem_map.mp h
  rw [digit_toNat (isDigit_of_mem hc)]
  exact digit_bounds (isDigit_of_mem hc)

theorem printDigits_ne_nil (n : ℕ) : printDigits n ≠ [] := by
  simp [printDigits, Nat.toDigits_ne_nil]

theorem parseDigits_printDigits (n : ℕ) : parseDigits (printDigits n) = some n := by
  rw [parseDigits, if_pos ⟨printDigits_ne_nil n, fun b hb ↦ mem_printDigits hb⟩]
  have hfold : (printDigits n).foldl (fun n b ↦ 10 * n + (b.toNat - 48)) 0 =
      Nat.ofDigitChars 10 (Nat.toDigits 10 n) 0 := by
    rw [printDigits, List.foldl_map, Nat.ofDigitChars_eq_foldl]
    apply List.foldl_ext
    intro m c hc
    rw [digit_toNat (isDigit_of_mem hc)]
    rfl
  rw [hfold, Nat.ofDigitChars_ten_toDigits]

def nat : Cast ℕ where
  print := printDigits
  parse := parseDigits
  parse_print := parseDigits_printDigits

def printInt (i : ℤ) : List UInt8 :=
  if i < 0 then 45 :: printDigits i.natAbs else printDigits i.natAbs

def parseInt : List UInt8 → Option ℤ
  | [] => none
  | b :: text =>
    if b = 45 then (parseDigits text).map (fun n : ℕ ↦ -(n : ℤ))
    else (parseDigits (b :: text)).map (fun n : ℕ ↦ (n : ℤ))

theorem parseInt_printInt (i : ℤ) : parseInt (printInt i) = some i := by
  unfold printInt
  split
  · next hneg =>
    rw [parseInt, if_pos rfl, parseDigits_printDigits, Option.map_some]
    exact congrArg some (by omega)
  · next hpos =>
    obtain ⟨b, text, heq⟩ := List.exists_cons_of_ne_nil (printDigits_ne_nil i.natAbs)
    have hb := mem_printDigits (show b ∈ printDigits i.natAbs by simp [heq])
    have hne : b ≠ 45 := by
      intro h
      rw [h] at hb
      exact absurd hb.1 (by decide)
    rw [heq, parseInt, if_neg hne, ← heq, parseDigits_printDigits, Option.map_some]
    exact congrArg some (by omega)

def int : Cast ℤ where
  print := printInt
  parse := parseInt
  parse_print := parseInt_printInt

def uint64 : Cast UInt64 :=
  nat.through UInt64.toNat (fun n ↦ if n < 2 ^ 64 then some (UInt64.ofNat n) else none) (by
    intro n
    rw [if_pos n.toNat_lt, UInt64.ofNat_toNat])

def int64 : Cast Int64 :=
  int.through Int64.toInt
    (fun i ↦ if -2 ^ 63 ≤ i ∧ i < 2 ^ 63 then some (Int64.ofInt i) else none) (by
    intro i
    rw [if_pos ⟨i.le_toInt, i.toInt_lt⟩, Int64.ofInt_toInt])

def bool : Cast Bool :=
  Cast.named [false, true] (fun b ↦ bif b then [49] else [48]) (by decide)

end FlowctlGame.Text
