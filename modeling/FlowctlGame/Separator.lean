import FlowctlGame.Tokenizer
import FlowctlGame.Text.Matching

namespace FlowctlGame

open Text

/-- Feed chunks to one instance until it decides: the number of bytes up to the accepted
count, once it accepts. -/
def TokenizerLibrary.feed (lib : TokenizerLibrary) :
    lib.Instance → List Bytes → Except String (Option ℕ)
  | _, [] => .ok none
  | tokenizer, chunk :: chunks =>
    match lib.call tokenizer chunk with
    | .error msg => .error msg
    | .ok (⟨.FAIL, _⟩, _) => .ok none
    | .ok (⟨.ACCEPTED, n⟩, _) => .ok (some n)
    | .ok (⟨.CONTINUE, _⟩, tokenizer') =>
      (lib.feed tokenizer' chunks).map (·.map (chunk.length + ·))

/-- Non-empty chunks that make up `stream`. -/
structure Cutting (stream : Bytes) (chunks : List Bytes) : Prop where
  flatten : chunks.flatten = stream
  nonempty : [] ∉ chunks

theorem cutting_whole {stream : Bytes} (h : stream ≠ []) : Cutting stream [stream] :=
  ⟨by simp, by simpa using h.symm⟩

namespace Split

variable {sep stream data : Bytes} {k i n : ℕ} {chunks : List Bytes}

theorem parseFrom_cons (c : UInt8) (hk : k < sep.length) :
    parseFrom sep k i (c :: data) =
      if restart sep k c = sep.length then .ok (1, i + 1, ⟨sep, restart sep k c⟩)
      else parseFrom sep (restart sep k c) (i + 1) data := by
  simp only [parseFrom, if_pos hk]
  rfl

theorem parseFrom_eq (hk : k < sep.length) :
    parseFrom sep k i data =
      match scanFrom sep k data with
      | some n => .ok (1, i + n, ⟨sep, sep.length⟩)
      | none => .ok (0, i + data.length, ⟨sep, data.foldl (restart sep) k⟩) := by
  induction data generalizing k i with
  | nil => rfl
  | cons c data ih =>
    have hle := restart_le_succ sep k c
    rw [parseFrom_cons c hk]
    simp only [scanFrom, List.foldl_cons, List.length_cons]
    split
    · rename_i hlen
      rw [hlen]
    · rename_i hlen
      rw [ih (by omega)]
      cases scanFrom sep (restart sep k c) data with
      | some n => simp [Nat.add_right_comm, Nat.add_assoc]
      | none => simp [Nat.add_right_comm, Nat.add_assoc]

theorem call_eq (hk : k < sep.length) :
    library.call ⟨sep, k⟩ data =
      match scanFrom sep k data with
      | some n => .ok (⟨.ACCEPTED, n⟩, ⟨sep, sep.length⟩)
      | none => .ok (⟨.CONTINUE, data.length⟩, ⟨sep, data.foldl (restart sep) k⟩) := by
  have hsep : sep.length ≠ 0 := by omega
  have hparse : library.parse ⟨sep, k⟩ data = parseFrom sep k 0 data := by
    simp only [library, parse, if_neg hsep]
  simp only [TokenizerLibrary.call, hparse, parseFrom_eq hk]
  cases scanFrom sep k data <;> simp

theorem feed_eq (hk : k < sep.length) :
    library.feed ⟨sep, k⟩ chunks = .ok (scanFrom sep k chunks.flatten) := by
  induction chunks generalizing k with
  | nil => rfl
  | cons chunk chunks ih =>
    simp only [TokenizerLibrary.feed, call_eq hk, List.flatten_cons, scanFrom_append]
    cases hscan : scanFrom sep k chunk with
    | some n => rfl
    | none =>
      simp only [Option.none_or]
      rw [ih (foldl_restart_lt hk hscan)]
      rfl

theorem new_truncates (hne : sep ≠ []) :
    library.newTokenizer sep = .ok ⟨sep.takeWhile (· ≠ 0), 0⟩ := by
  have hlen : sep.length ≠ 0 := by simpa using hne
  simp only [library, new, if_neg hlen]

theorem new_eq (hne : sep ≠ []) (hnul : 0 ∉ sep) : library.newTokenizer sep = .ok ⟨sep, 0⟩ := by
  have htake : sep.takeWhile (· ≠ 0) = sep := by
    rw [List.takeWhile_eq_self_iff]
    intro c hc
    simpa using fun h : c = 0 ↦ hnul (h ▸ hc)
  rw [new_truncates hne, htake]

theorem feed_cutting (hne : sep ≠ []) (hc : Cutting stream chunks) :
    library.feed ⟨sep, 0⟩ chunks = .ok (scanFrom sep 0 stream) := by
  rw [feed_eq (List.length_pos_iff.mpr hne), hc.flatten]

theorem suffix_of_feed (hne : sep ≠ []) (hc : Cutting stream chunks)
    (h : library.feed ⟨sep, 0⟩ chunks = .ok (some n)) :
    n ≤ stream.length ∧ sep <:+ stream.take n := by
  rw [feed_cutting hne hc, Except.ok.injEq] at h
  refine ⟨scanFrom_le_length h, ?_⟩
  simpa using suffix_of_scanFrom (matched_zero sep []) h

/-- A border that is lost by falling back hides an occurrence. -/
theorem feed_late (hne : sep ≠ []) (hr : ¬ Restartable sep) :
    ∃ stream n, OccursFirst sep stream n ∧
      ∀ chunks, Cutting stream chunks → library.feed ⟨sep, 0⟩ chunks = .ok none := by
  obtain ⟨stream, n, hfirst, hnone⟩ := scan_late hr
  refine ⟨stream, n, hfirst, fun chunks hc ↦ ?_⟩
  rw [feed_cutting hne hc, hnone]

/-- How far the matcher of `tokenizer_parse` reaches: what it accepts ends with the
separator, it is the same wherever the stream is cut, and it finds every first occurrence just
when no border of the separator is lost by falling back. -/
theorem split_reach (sep : Bytes) (hne : sep ≠ []) (hnul : 0 ∉ sep) :
    ∃ tokenizer, library.newTokenizer sep = .ok tokenizer ∧
      (∀ stream chunks, Cutting stream chunks → ∀ n,
        library.feed tokenizer chunks = .ok (some n) →
          n ≤ stream.length ∧ sep <:+ stream.take n) ∧
      (∀ stream chunks chunks', Cutting stream chunks → Cutting stream chunks' →
        library.feed tokenizer chunks = library.feed tokenizer chunks') ∧
      (∀ stream before before' chunks chunks', before <+: stream → before' <+: stream →
        Cutting before chunks → Cutting before' chunks' → ∀ n n',
          library.feed tokenizer chunks = .ok (some n) →
            library.feed tokenizer chunks' = .ok (some n') → n = n') ∧
      ((∀ stream chunks, Cutting stream chunks → ∀ n,
        library.feed tokenizer chunks = .ok (some n) ↔ OccursFirst sep stream n) ↔
          Restartable sep) ∧
      (¬ Restartable sep → ∃ stream n, OccursFirst sep stream n ∧
        ∀ chunks, Cutting stream chunks → ∀ m,
          library.feed tokenizer chunks = .ok (some m) → n < m) := by
  refine ⟨⟨sep, 0⟩, new_eq hne hnul, ?_, ?_, ?_, ⟨fun h ↦ ?_, fun hr ↦ ?_⟩, fun hr ↦ ?_⟩
  · exact fun stream chunks hc n hn ↦ suffix_of_feed hne hc hn
  · intro stream chunks chunks' hc hc'
    rw [feed_cutting hne hc, feed_cutting hne hc']
  · intro stream before before' chunks chunks' hb hb' hc hc' n n' hn hn'
    rw [feed_cutting hne hc, Except.ok.injEq] at hn
    rw [feed_cutting hne hc', Except.ok.injEq] at hn'
    have hstream := scanFrom_extend hb hn
    rw [scanFrom_extend hb' hn'] at hstream
    exact (Option.some.inj hstream).symm
  · by_contra hr
    obtain ⟨stream, n, hfirst, hnone⟩ := feed_late hne hr
    have hstream : stream ≠ [] := by
      intro hnil
      have hsuffix := hfirst.1.2
      rw [hnil, List.take_nil, List.suffix_nil] at hsuffix
      exact hne hsuffix
    have haccept := (h stream [stream] (cutting_whole hstream) n).mpr hfirst
    rw [hnone _ (cutting_whole hstream)] at haccept
    cases haccept
  · intro stream chunks hc n
    rw [feed_cutting hne hc, Except.ok.injEq]
    exact scan_first hr hne
  · obtain ⟨stream, n, hfirst, hnone⟩ := feed_late hne hr
    refine ⟨stream, n, hfirst, fun chunks hc m hm ↦ ?_⟩
    rw [hnone chunks hc] at hm
    cases hm

theorem split_reach_overlapping : ∃ tokenizer, library.newTokenizer [97, 97, 98] = .ok tokenizer ∧
    ∃ stream n, OccursFirst [97, 97, 98] stream n ∧ ∀ chunks, Cutting stream chunks →
      ∀ m, library.feed tokenizer chunks = .ok (some m) → n < m := by
  obtain ⟨tokenizer, hnew, -, -, -, -, hlate⟩ := split_reach [97, 97, 98] (by decide) (by decide)
  refine ⟨tokenizer, hnew, hlate ?_⟩
  intro hr
  have hsame := hr 2 1 (by decide) ⟨by decide, by decide, by decide⟩
  simp at hsame

/-- The instance looks for the whole argument just when the argument has no NUL. -/
theorem whole_argument_iff (argument : Bytes) (hne : argument ≠ []) :
    (∃ tokenizer, library.newTokenizer argument = .ok tokenizer ∧
      ∀ stream chunks, Cutting stream chunks → ∃ position,
        library.feed tokenizer chunks = .ok position ∧
          ∀ n, position = some n → n ≤ stream.length ∧ argument <:+ stream.take n) ↔
      0 ∉ argument := by
  constructor
  · intro h hnul
    obtain ⟨tokenizer, hnew, hfed⟩ := h
    rw [new_truncates hne] at hnew
    cases hnew
    have hshort : (argument.takeWhile (· ≠ 0)).length < argument.length := by
      refine Nat.lt_of_le_of_ne (List.takeWhile_prefix _).length_le (fun hlen ↦ ?_)
      have hall := (List.takeWhile_prefix _).eq_of_length hlen
      rw [List.takeWhile_eq_self_iff] at hall
      simpa using hall 0 hnul
    generalize argument.takeWhile (· ≠ 0) = sep at hfed hshort
    by_cases hsep : sep = []
    · subst hsep
      obtain ⟨position, hposition, -⟩ := hfed [0] [[0]] (cutting_whole (by decide))
      cases hposition
    · obtain ⟨position, hposition, hends⟩ := hfed sep [sep] (cutting_whole hsep)
      rw [feed_cutting hsep (cutting_whole hsep), scan_self hsep, Except.ok.injEq] at hposition
      have hsuffix := (hends sep.length hposition.symm).2
      have hle := hsuffix.length_le
      rw [List.take_length] at hle
      omega
  · intro hnul
    refine ⟨⟨argument, 0⟩, new_eq hne hnul, fun stream chunks hc ↦ ?_⟩
    refine ⟨_, feed_cutting hne hc, fun n hn ↦ suffix_of_feed hne hc ?_⟩
    rw [feed_cutting hne hc, hn]

theorem whole_argument_iff_newline : ∃ tokenizer, library.newTokenizer [10] = .ok tokenizer ∧
    ∀ stream chunks, Cutting stream chunks → ∃ position,
      library.feed tokenizer chunks = .ok position ∧
        ∀ n, position = some n → n ≤ stream.length ∧ [10] <:+ stream.take n :=
  (whole_argument_iff [10] (by decide)).mpr (by decide)

/-- With the argument `a`, NUL, `b` the token ends after the first `a`. -/
theorem argument_truncated_at_nul : ∃ tokenizer,
    library.newTokenizer [97, 0, 98] = .ok tokenizer ∧ Cutting [97] [[97]] ∧
      library.feed tokenizer [[97]] = .ok (some 1) ∧ ¬ [97, 0, 98] <:+ ([97] : Bytes).take 1 :=
  ⟨⟨[97], 0⟩, rfl, cutting_whole (by decide), by decide, by decide⟩

end Split

end FlowctlGame
