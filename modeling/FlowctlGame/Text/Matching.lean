import Mathlib.Data.List.Infix
import Mathlib.Data.Nat.Find
import Mathlib.Order.Bounds.Basic

namespace FlowctlGame.Text

variable {α : Type} {sep text : List α} {k b n : ℕ} {c : α}

/-- The first `k` symbols of `sep` are the last `k` of `text`. -/
def Matched (sep text : List α) (k : ℕ) : Prop := k ≤ sep.length ∧ sep.take k <:+ text

def Longest (sep text : List α) (k : ℕ) : Prop := IsGreatest {k | Matched sep text k} k

/-- The first occurrence of `sep` in `text` ends after `n` symbols. -/
def OccursFirst (sep text : List α) (n : ℕ) : Prop :=
  IsLeast {n | n ≤ text.length ∧ sep <:+ text.take n} n

/-- `b` is the length of a proper non-empty border of the first `k` symbols of `sep`. -/
structure Border (sep : List α) (k b : ℕ) : Prop where
  pos : 0 < b
  lt : b < k
  suffix : sep.take b <:+ sep.take k

/-- The symbol after a prefix is also the symbol after each of its borders. -/
def Restartable (sep : List α) : Prop :=
  ∀ k b, k < sep.length → Border sep k b → sep[b]? = sep[k]?

theorem matched_zero (sep text : List α) : Matched sep text 0 :=
  ⟨Nat.zero_le _, by simp⟩

theorem matched_length : Matched sep text sep.length ↔ sep <:+ text := by
  simp [Matched]

theorem matched_append_succ :
    Matched sep (text ++ [c]) (k + 1) ↔ Matched sep text k ∧ sep[k]? = some c := by
  constructor
  · intro h
    obtain ⟨hlt, hsuffix⟩ := h
    rw [← List.take_append_getElem hlt] at hsuffix
    have hparts := (List.suffix_append_inj_of_length_eq (by simp)).mp hsuffix
    refine ⟨⟨Nat.le_of_succ_le hlt, hparts.1⟩, ?_⟩
    rw [List.getElem?_eq_getElem hlt, List.singleton_inj.mp hparts.2]
  · intro h
    obtain ⟨⟨-, hsuffix⟩, hc⟩ := h
    obtain ⟨hlt, rfl⟩ := List.getElem?_eq_some_iff.mp hc
    refine ⟨hlt, ?_⟩
    rw [← List.take_append_getElem hlt, List.suffix_append_self_iff]
    exact hsuffix

/-- The shorter of two matches is a border of the longer one. -/
theorem Matched.border (h : Matched sep text k) (hb : Matched sep text b) (hpos : 0 < b)
    (hlt : b < k) : Border sep k b := by
  refine ⟨hpos, hlt, List.suffix_of_suffix_length_le hb.2 h.2 ?_⟩
  rw [List.length_take, List.length_take]
  omega

theorem not_suffix_of_longest (hk : Longest sep text k) (hlt : k < sep.length) :
    ¬ sep <:+ text := by
  intro h
  have hle := hk.2 (matched_length.mpr h)
  omega

theorem isLeast_succ {S : Set ℕ} (T : Set ℕ) (hzero : 0 ∉ S) (hsucc : ∀ m, m + 1 ∈ S ↔ m ∈ T) :
    IsLeast S (n + 1) ↔ IsLeast T n := by
  constructor
  · intro h
    refine ⟨(hsucc n).mp h.1, fun m hm ↦ ?_⟩
    have hle := h.2 ((hsucc m).mpr hm)
    omega
  · intro h
    refine ⟨(hsucc n).mpr h.1, fun m hm ↦ ?_⟩
    cases m with
    | zero => exact absurd hm hzero
    | succ m =>
      have hle := h.2 ((hsucc m).mp hm)
      omega

section Matcher

variable [DecidableEq α]

/-- The matcher that falls back to a match of one symbol or none. -/
def restart (sep : List α) (k : ℕ) (c : α) : ℕ :=
  if some c = sep[k]? then k + 1 else if some c = sep[0]? then 1 else 0

/-- Where the matcher, once `k` symbols are matched, completes `sep`. -/
def scanFrom (sep : List α) : ℕ → List α → Option ℕ
  | _, [] => none
  | k, c :: text =>
    if restart sep k c = sep.length then some 1
    else (scanFrom sep (restart sep k c) text).map (· + 1)

theorem restart_le_succ (sep : List α) (k : ℕ) (c : α) : restart sep k c ≤ k + 1 := by
  unfold restart
  split_ifs <;> omega

theorem matched_restart (h : Matched sep text k) (c : α) :
    Matched sep (text ++ [c]) (restart sep k c) := by
  unfold restart
  split_ifs with hk hzero
  · exact matched_append_succ.mpr ⟨h, hk.symm⟩
  · exact matched_append_succ.mpr ⟨matched_zero sep text, hzero.symm⟩
  · exact matched_zero _ _

theorem longest_restart (hr : Restartable sep) (h : Longest sep text k) (hk : k < sep.length)
    (c : α) : Longest sep (text ++ [c]) (restart sep k c) := by
  refine ⟨matched_restart h.1 c, fun j hj ↦ ?_⟩
  cases j with
  | zero => exact Nat.zero_le _
  | succ j =>
    obtain ⟨hmatched, hc⟩ := matched_append_succ.mp hj
    have hle : j ≤ k := h.2 hmatched
    unfold restart
    split_ifs with hgo hzero
    · omega
    · rcases Nat.eq_zero_or_pos j with rfl | hpos
      · exact Nat.le_refl _
      · -- a match of `j` symbols is a border, or it is all of the `k` symbols
        rcases Nat.lt_or_eq_of_le hle with hlt | rfl
        · have hsame := hr k j hk (h.1.border hmatched hpos hlt)
          exact absurd (hc.symm.trans hsame) hgo
        · exact absurd hc.symm hgo
    · rcases Nat.eq_zero_or_pos j with rfl | hpos
      · exact absurd hc.symm hzero
      · rcases Nat.lt_or_eq_of_le hle with hlt | rfl
        · have hsame := hr k j hk (h.1.border hmatched hpos hlt)
          exact absurd (hc.symm.trans hsame) hgo
        · exact absurd hc.symm hgo

theorem scanFrom_append (sep : List α) (k : ℕ) (text more : List α) :
    scanFrom sep k (text ++ more) =
      (scanFrom sep k text).or
        ((scanFrom sep (text.foldl (restart sep) k) more).map (text.length + ·)) := by
  induction text generalizing k with
  | nil => simp [scanFrom]
  | cons c text ih =>
    simp only [List.cons_append, scanFrom, List.foldl_cons, List.length_cons]
    split
    · rfl
    · rw [ih]
      cases scanFrom sep (restart sep k c) text with
      | some n => rfl
      | none =>
        simp only [Option.map_none, Option.none_or, Option.map_map]
        congr 1
        funext n
        simp only [Function.comp_apply]
        omega

theorem scanFrom_pos (h : scanFrom sep k text = some n) : 0 < n := by
  cases text with
  | nil => simp [scanFrom] at h
  | cons c text =>
    simp only [scanFrom] at h
    split at h
    · cases h
      exact Nat.zero_lt_one
    · obtain ⟨m, -, rfl⟩ := Option.map_eq_some_iff.mp h
      exact Nat.succ_pos m

theorem scanFrom_le_length (h : scanFrom sep k text = some n) : n ≤ text.length := by
  induction text generalizing k n with
  | nil => simp [scanFrom] at h
  | cons c text ih =>
    simp only [scanFrom] at h
    split at h
    · cases h
      simp
    · obtain ⟨m, hm, rfl⟩ := Option.map_eq_some_iff.mp h
      have hle := ih hm
      simp only [List.length_cons]
      omega

theorem scanFrom_extend {before : List α} (hb : before <+: text)
    (h : scanFrom sep k before = some n) : scanFrom sep k text = some n := by
  obtain ⟨rest, rfl⟩ := hb
  rw [scanFrom_append, h, Option.some_or]

theorem foldl_restart_lt (hk : k < sep.length) (h : scanFrom sep k text = none) :
    text.foldl (restart sep) k < sep.length := by
  induction text generalizing k with
  | nil => exact hk
  | cons c text ih =>
    have hle := restart_le_succ sep k c
    simp only [scanFrom] at h
    split at h
    · cases h
    · exact ih (by omega) (Option.map_eq_none_iff.mp h)

theorem length_le_of_scanFrom (h : scanFrom sep k text = some n) : sep.length ≤ k + n := by
  induction text generalizing k n with
  | nil => simp [scanFrom] at h
  | cons c text ih =>
    have hstep := restart_le_succ sep k c
    simp only [scanFrom] at h
    split at h
    · cases h
      omega
    · obtain ⟨m, hm, rfl⟩ := Option.map_eq_some_iff.mp h
      have hle := ih hm
      omega

theorem suffix_of_scanFrom {before : List α} (hk : Matched sep before k)
    (h : scanFrom sep k text = some n) : sep <:+ before ++ text.take n := by
  induction text generalizing before k n with
  | nil => simp [scanFrom] at h
  | cons c text ih =>
    have hstep := matched_restart hk c
    simp only [scanFrom] at h
    split at h
    · rename_i hlen
      cases h
      rw [hlen] at hstep
      simpa using matched_length.mp hstep
    · obtain ⟨m, hm, rfl⟩ := Option.map_eq_some_iff.mp h
      have hrest := ih hstep hm
      rwa [List.append_assoc] at hrest

theorem scanFrom_isLeast (hr : Restartable sep) {before : List α} (hk : Longest sep before k)
    (hlt : k < sep.length) :
    scanFrom sep k text = some n ↔
      IsLeast {n | n ≤ text.length ∧ sep <:+ before ++ text.take n} n := by
  have hnow := not_suffix_of_longest hk hlt
  induction text generalizing before k n with
  | nil =>
    simp only [scanFrom, reduceCtorEq, false_iff]
    intro h
    exact hnow (by simpa using h.1.2)
  | cons c text ih =>
    have hzero : 0 ∉ {n | n ≤ (c :: text).length ∧ sep <:+ before ++ (c :: text).take n} := by
      intro h
      exact hnow (by simpa using h.2)
    have hstep := longest_restart hr hk hlt c
    cases n with
    | zero =>
      constructor
      · intro h
        have hle := length_le_of_scanFrom h
        omega
      · exact fun h ↦ absurd h.1 hzero
    | succ n =>
      rw [isLeast_succ {n | n ≤ text.length ∧ sep <:+ before ++ [c] ++ text.take n} hzero
        (by simp)]
      simp only [scanFrom]
      split
      · rename_i hlen
        rw [hlen] at hstep
        have hfirst : IsLeast {n | n ≤ text.length ∧ sep <:+ before ++ [c] ++ text.take n} 0 := by
          refine ⟨⟨Nat.zero_le _, ?_⟩, fun _ _ ↦ Nat.zero_le _⟩
          simpa using matched_length.mp hstep.1
        constructor
        · intro h
          cases h
          exact hfirst
        · intro h
          rw [h.unique hfirst]
      · rename_i hlen
        have hlt' := Nat.lt_of_le_of_ne hstep.1.1 hlen
        refine Iff.trans ?_ (ih hstep hlt' (not_suffix_of_longest hstep hlt'))
        simp

theorem scan_first (hr : Restartable sep) (hne : sep ≠ []) :
    scanFrom sep 0 text = some n ↔ OccursFirst sep text n := by
  have hlong : Longest sep [] 0 := by
    refine ⟨matched_zero sep [], fun j hj ↦ ?_⟩
    have hlen := hj.2.length_le
    rw [List.length_take, List.length_nil] at hlen
    have hj' := hj.1
    omega
  have hscan : scanFrom sep 0 text = some n ↔
      IsLeast {n | n ≤ text.length ∧ sep <:+ [] ++ text.take n} n :=
    scanFrom_isLeast hr hlong (List.length_pos_iff.mpr hne)
  simpa [OccursFirst] using hscan

theorem foldl_restart_take (hk : k ≤ sep.length) : (sep.take k).foldl (restart sep) 0 = k := by
  induction k with
  | zero => simp
  | succ k ih =>
    rw [← List.take_append_getElem hk, List.foldl_append, ih (Nat.le_of_succ_le hk)]
    simp [restart]

theorem scan_self (hne : sep ≠ []) : scanFrom sep 0 sep = some sep.length := by
  have hpos : 0 < sep.length := List.length_pos_iff.mpr hne
  cases hscan : scanFrom sep 0 sep with
  | none =>
    have hlt := foldl_restart_lt hpos hscan
    have hall := foldl_restart_take (Nat.le_refl sep.length)
    rw [List.take_length] at hall
    omega
  | some n =>
    have hge := length_le_of_scanFrom hscan
    have hle := scanFrom_le_length hscan
    congr 1
    omega

/-- The match that a border would have kept is lost: the matcher needs more symbols than
there are left. -/
theorem scan_misses (hk : k < sep.length) (hb : Border sep k b) (hne : sep[b]? ≠ sep[k]?) :
    scanFrom sep 0 (sep.take k ++ sep.drop b) = none := by
  have hblt : b < sep.length := hb.lt.trans hk
  have hnone : scanFrom sep 0 (sep.take k) = none := by
    rw [Option.eq_none_iff_forall_ne_some]
    intro n h
    have hle := length_le_of_scanFrom h
    have hn := scanFrom_le_length h
    rw [List.length_take] at hn
    omega
  have hfall : restart sep k sep[b] ≤ 1 := by
    unfold restart
    rw [← List.getElem?_eq_getElem hblt, if_neg hne]
    split_ifs <;> omega
  have hpos := hb.pos
  rw [scanFrom_append, hnone, foldl_restart_take hk.le, Option.none_or,
    List.drop_eq_getElem_cons hblt]
  simp only [scanFrom]
  rw [if_neg (by omega), Option.map_map, Option.map_eq_none_iff,
    Option.eq_none_iff_forall_ne_some]
  intro n h
  have hle := length_le_of_scanFrom h
  have hn := scanFrom_le_length h
  rw [List.length_drop] at hn
  omega

theorem scan_late (h : ¬ Restartable sep) :
    ∃ text n, OccursFirst sep text n ∧ scanFrom sep 0 text = none := by
  simp only [Restartable, not_forall] at h
  obtain ⟨k, b, hk, hb, hne⟩ := h
  have hmem : (sep.take k ++ sep.drop b).length ∈
      {n | n ≤ (sep.take k ++ sep.drop b).length ∧ sep <:+ (sep.take k ++ sep.drop b).take n} := by
    refine ⟨Nat.le_refl _, ?_⟩
    obtain ⟨before, hbefore⟩ := hb.suffix
    rw [List.take_length, ← hbefore, List.append_assoc, List.take_append_drop]
    exact List.suffix_append _ _
  classical
  exact ⟨_, _, ⟨Nat.find_spec ⟨_, hmem⟩, fun m hm ↦ Nat.find_min' _ hm⟩, scan_misses hk hb hne⟩

end Matcher

end FlowctlGame.Text
