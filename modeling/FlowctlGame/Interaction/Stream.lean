import FlowctlGame.Interaction.Path
import Mathlib.Data.ENat.Basic
import Mathlib.Data.List.OfFn

namespace FlowctlGame.Interaction

variable {α κ : Type}

/-- A finite or infinite sequence of symbols. -/
structure Stream (α : Type) where
  symbol : ℕ → α
  length : ℕ∞

namespace Stream

def slice (S : Stream α) (p n : ℕ) : List α := List.ofFn (fun i : Fin n ↦ S.symbol (p + i))

@[simp]
theorem slice_length (S : Stream α) (p n : ℕ) : (S.slice p n).length = n := by
  simp [slice]

@[simp]
theorem slice_zero (S : Stream α) (p : ℕ) : S.slice p 0 = [] := by
  simp [slice]

theorem slice_eq_nil {S : Stream α} {p n : ℕ} : S.slice p n = [] ↔ n = 0 := by
  rw [← List.length_eq_zero_iff, slice_length]

theorem slice_append (S : Stream α) (p m n : ℕ) :
    S.slice p m ++ S.slice (p + m) n = S.slice p (m + n) := by
  simp only [slice, List.ofFn_add, Fin.val_castLE, Fin.val_natAdd, Nat.add_assoc]

theorem slice_take (S : Stream α) (p : ℕ) {m n : ℕ} (h : m ≤ n) :
    (S.slice p n).take m = S.slice p m := by
  obtain ⟨k, rfl⟩ := Nat.exists_eq_add_of_le h
  rw [← slice_append, List.take_append_of_le_length (by simp), List.take_of_length_le (by simp)]

theorem slice_drop (S : Stream α) (p : ℕ) {m n : ℕ} (h : m ≤ n) :
    (S.slice p n).drop m = S.slice (p + m) (n - m) := by
  obtain ⟨k, rfl⟩ := Nat.exists_eq_add_of_le h
  rw [← slice_append, List.drop_append_of_le_length (by simp), List.drop_of_length_le (by simp),
    List.nil_append, Nat.add_sub_cancel_left]

theorem slice_one (S : Stream α) (p : ℕ) : S.slice p 1 = [S.symbol p] := by
  simp [slice]

/-- The symbols from position `p` on, as far as the stream goes. -/
noncomputable def rest (S : Stream α) (p : ℕ) : ℕ → Option α :=
  fun i ↦ if (p + i : ℕ) < S.length then some (S.symbol (p + i)) else none

theorem rest_eq_none {S : Stream α} {p i : ℕ} : S.rest p i = none ↔ S.length ≤ (p + i : ℕ) := by
  simp [rest]

/-- The same is ahead at two places only if they are one, or the stream is endless and repeats
itself. -/
theorem rest_eq_iff {S : Stream α} {p p' : ℕ} (hp : p ≤ S.length) (hp' : p' ≤ S.length) :
    S.rest p = S.rest p' ↔
      p = p' ∨ S.length = ⊤ ∧ ∀ i, S.symbol (p + i) = S.symbol (p' + i) := by
  cases hlen : S.length with
  | top =>
    constructor
    · intro h
      refine .inr ⟨rfl, fun i ↦ ?_⟩
      have hi := congrFun h i
      simpa [rest, hlen, ENat.natCast_lt_top, -Nat.cast_add] using hi
    · intro h
      rcases h with rfl | ⟨-, hsymbol⟩
      · rfl
      · funext i
        simp [rest, hlen, ENat.natCast_lt_top, hsymbol, -Nat.cast_add]
  | coe l =>
    rw [hlen] at hp hp'
    have hp : p ≤ l := by exact_mod_cast hp
    have hp' : p' ≤ l := by exact_mod_cast hp'
    constructor
    · intro h
      have hnone (i : ℕ) : l ≤ p + i ↔ l ≤ p' + i := by
        have hi : S.rest p i = none ↔ S.rest p' i = none := by rw [h]
        rw [rest_eq_none, rest_eq_none, hlen] at hi
        exact_mod_cast hi
      have h₁ := (hnone (l - p)).mp (by omega)
      have h₂ := (hnone (l - p')).mpr (by omega)
      exact .inl (by omega)
    · intro h
      rcases h with rfl | ⟨htop, -⟩
      · rfl
      · exact absurd htop (ENat.natCast_ne_top l)

/-- The symbols of `w` and after them those from position `p` on. -/
noncomputable def ahead (S : Stream α) (w : List α) (p : ℕ) : ℕ → Option α :=
  fun i ↦ w[i]?.or (S.rest p (i - w.length))

@[simp]
theorem ahead_nil (S : Stream α) (p : ℕ) : S.ahead [] p = S.rest p := by
  funext i
  simp [ahead]

theorem ahead_slice {S : Stream α} {p n : ℕ} (h : (p + n : ℕ) ≤ S.length) :
    S.ahead (S.slice p n) (p + n) = S.rest p := by
  funext i
  by_cases hi : i < n
  · have hlt : ((p + i : ℕ) : ℕ∞) < S.length :=
      lt_of_lt_of_le (by exact_mod_cast Nat.add_lt_add_left hi p) h
    simp [ahead, rest, slice, hi, hlt, -Nat.cast_add]
  · have hpos : p + n + (i - n) = p + i := by omega
    simp [ahead, rest, slice, hi, hpos]

/-- The shortest non-empty accepted piece of the stream at `p` has length `n`. -/
def Shortest (S : Stream α) (accepts : List α → Prop) (p n : ℕ) : Prop :=
  0 < n ∧ (p + n : ℕ) ≤ S.length ∧ accepts (S.slice p n) ∧
    ∀ m, 0 < m → m < n → ¬ accepts (S.slice p m)

/-- No non-empty piece of the stream at `p` is accepted. -/
def Barren (S : Stream α) (accepts : List α → Prop) (p : ℕ) : Prop :=
  ∀ n, 0 < n → (p + n : ℕ) ≤ S.length → ¬ accepts (S.slice p n)

/-- Reference for one cut of the stream with the criterion `k`: either the shortest
accepted piece is taken, or nothing will ever be accepted and the finite rest is
given up. -/
inductive Cut (accepts : κ → List α → Prop) (S : Stream α) : ℕ → κ × Option (List α) → ℕ → Prop
  | token {k : κ} {p n : ℕ} (h : S.Shortest (accepts k) p n) :
      Cut accepts S p (k, some (S.slice p n)) (p + n)
  | eof {k : κ} {p l : ℕ} (hl : S.length = l) (h : S.Barren (accepts k) p) :
      Cut accepts S p (k, none) l

theorem Shortest.unique {S : Stream α} {accepts : List α → Prop} {p m n : ℕ}
    (hm : S.Shortest accepts p m) (hn : S.Shortest accepts p n) : m = n := by
  obtain ⟨hm₀, -, hma, hmin⟩ := hm
  obtain ⟨hn₀, -, hna, hnin⟩ := hn
  rcases Nat.lt_trichotomy m n with h | h | h
  · exact absurd hma (hnin m hm₀ h)
  · exact h
  · exact absurd hna (hmin n hn₀ h)

section OfList

variable [Inhabited α] {l l' : List α} {accepts : κ → List α → Prop} {p q n : ℕ}

def ofList (l : List α) : Stream α := ⟨fun i ↦ l.getD i default, l.length⟩

theorem length_ofList (l : List α) : (ofList l).length = l.length := rfl

theorem le_length_ofList : (n : ℕ∞) ≤ (ofList l).length ↔ n ≤ l.length := by
  rw [length_ofList]
  exact_mod_cast Iff.rfl

theorem slice_ofList (h : p + n ≤ l.length) : (ofList l).slice p n = (l.drop p).take n := by
  refine List.ext_getElem ?_ (fun i hi hi' ↦ ?_)
  · rw [slice_length, List.length_take, List.length_drop]
    omega
  · rw [slice_length] at hi
    simp [slice, ofList, List.getElem?_eq_getElem (show p + i < l.length by omega)]

theorem slice_ofList_extend (hl : l <+: l') (h : p + n ≤ l.length) :
    (ofList l').slice p n = (ofList l).slice p n := by
  obtain ⟨more, rfl⟩ := hl
  rw [slice_ofList h, slice_ofList (by rw [List.length_append]; omega),
    List.drop_append_of_le_length (by omega), List.take_append_of_le_length]
  rw [List.length_drop]
  omega

theorem Shortest.extend {k : κ} (hl : l <+: l') (h : (ofList l).Shortest (accepts k) p n) :
    (ofList l').Shortest (accepts k) p n := by
  obtain ⟨hn, hlen, hacc, hmin⟩ := h
  have hle := le_length_ofList.mp hlen
  refine ⟨hn, le_length_ofList.mpr (hle.trans hl.length_le), ?_, fun m hm hmn ↦ ?_⟩
  · rwa [slice_ofList_extend hl hle]
  · rw [slice_ofList_extend hl (by omega)]
    exact hmin m hm hmn

theorem cuts_extend {cuts : List (κ × Option (List α))} (hl : l <+: l')
    (h : Path (Cut accepts (ofList l)) p cuts q) (hall : ∀ cut ∈ cuts, cut.2 ≠ none) :
    Path (Cut accepts (ofList l')) p cuts q := by
  induction h with
  | nil => exact .nil _
  | cons hcut h ih =>
    obtain ⟨hsome, hrest⟩ := List.forall_mem_cons.mp hall
    refine .cons ?_ (ih hrest)
    cases hcut with
    | token hshort =>
      have hle := le_length_ofList.mp hshort.2.1
      rw [← slice_ofList_extend hl hle]
      exact .token (hshort.extend hl)
    | eof => exact absurd rfl hsome

theorem cuts_flatten {cuts : List (κ × Option (List α))}
    (h : Path (Cut accepts (ofList l)) p cuts q) (hp : p ≤ l.length) :
    (cuts.filterMap Prod.snd).flatten <+: l.drop p := by
  induction h with
  | nil => exact List.nil_prefix
  | @cons p t u cut cuts hcut h ih =>
    cases hcut with
    | @token k _ n hshort =>
      have hle := le_length_ofList.mp hshort.2.1
      have hrest := ih hle
      have hflat : (((k, some ((ofList l).slice p n)) :: cuts).filterMap Prod.snd).flatten =
          (l.drop p).take n ++ (cuts.filterMap Prod.snd).flatten := by
        rw [← slice_ofList hle]
        rfl
      rw [hflat]
      rw [← List.drop_drop] at hrest
      have happend := (List.prefix_append_right_inj ((l.drop p).take n)).mpr hrest
      rwa [List.take_append_drop] at happend
    | eof hl hbarren =>
      have hend : t = l.length := by
        rw [length_ofList] at hl
        exact_mod_cast hl.symm
      have hrest := ih hend.le
      rw [hend, List.drop_length] at hrest
      rw [List.filterMap_cons_none rfl]
      exact hrest.trans List.nil_prefix

end OfList

end Stream

end FlowctlGame.Interaction
