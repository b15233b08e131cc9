import FlowctlGame.TokenStream
import FlowctlGame.Limits
import FlowctlGame.Verdict

namespace FlowctlGame

open Interaction Program Unistd Broker

variable {lib : TokenizerLibrary} {decision : Bytes → Tokenizer.Status} {S : Stream UInt8}
  {argument : TokenizerArgument} {tr : List Event} {sol sol' : Solution lib} {p p' q k n : ℕ}

/-- What a call with `buf` may answer after `data` was fed, when `decision` decides on the
concatenation: the first prefix that is decided counts. -/
inductive TokenizerLibrary.Decision (decision : Bytes → Tokenizer.Status) (data buf : Bytes) :
    Tokenizer.Result → Prop
  | undecided {n : ℕ} (hnone : ∀ m, 0 < m → m ≤ buf.length →
      decision (data ++ buf.take m) = .CONTINUE) : Decision decision data buf ⟨.CONTINUE, n⟩
  | accepted {n : ℕ} (hn : 0 < n) (hle : n ≤ buf.length)
      (hmin : ∀ m, 0 < m → m < n → decision (data ++ buf.take m) = .CONTINUE)
      (hacc : decision (data ++ buf.take n) = .ACCEPTED) : Decision decision data buf ⟨.ACCEPTED, n⟩
  | failed {n c : ℕ} (hn : 0 < n) (hle : n ≤ buf.length)
      (hmin : ∀ m, 0 < m → m < n → decision (data ++ buf.take m) = .CONTINUE)
      (hfail : decision (data ++ buf.take n) = .FAIL) : Decision decision data buf ⟨.FAIL, c⟩

/-- The decision of the tokenizers depends on the concatenation of what they were fed only. -/
def TokenizerLibrary.Deciding (lib : TokenizerLibrary) (argument : TokenizerArgument)
    (decision : Bytes → Tokenizer.Status) : Prop :=
  ∀ tokenizer₀, lib.newTokenizer argument = .ok tokenizer₀ →
    ∀ data tokenizer, lib.Fed tokenizer₀ data tokenizer → ∀ buf, buf ≠ [] →
      ∃ result tokenizer', lib.call tokenizer buf = .ok (result, tokenizer') ∧
        Decision decision data buf result

/-- The `n` symbols from `q` on are the first of `S` that are decided, with `status`. -/
def Decided (decision : Bytes → Tokenizer.Status) (S : Stream UInt8) (q : ℕ)
    (status : Tokenizer.Status) (n : ℕ) : Prop :=
  S.Shortest (fun data ↦ decision data ≠ .CONTINUE) q n ∧ decision (S.slice q n) = status

/-- No prefix of `S` from `q` on of length at most `n` is decided. -/
def Undecided (decision : Bytes → Tokenizer.Status) (S : Stream UInt8) (q n : ℕ) : Prop :=
  ∀ m, 0 < m → m ≤ n → decision (S.slice q m) = .CONTINUE

theorem undecided_zero : Undecided decision S q 0 := by
  intro m hm hle
  omega

theorem Decided.unique {m n : ℕ} {s t : Tokenizer.Status} (hm : Decided decision S q s m)
    (hn : Decided decision S q t n) : m = n ∧ s = t := by
  obtain rfl := hm.1.unique hn.1
  exact ⟨rfl, hm.2.symm.trans hn.2⟩

theorem Undecided.lt_of_decided {m n : ℕ} {s : Tokenizer.Status} (hm : Undecided decision S q m)
    (hn : Decided decision S q s n) : m < n := by
  obtain ⟨⟨hpos, -, hne, -⟩, -⟩ := hn
  by_contra hle
  exact hne (hm n hpos (by omega))

theorem Undecided.decided {s : Tokenizer.Status} (hnone : Undecided decision S q n) {d : ℕ}
    (hd : 0 < d) (hlen : (q + (n + d) : ℕ) ≤ S.length)
    (hmin : ∀ m, 0 < m → m < d → decision (S.slice q n ++ S.slice (q + n) m) = .CONTINUE)
    (hs : decision (S.slice q n ++ S.slice (q + n) d) = s) (hne : s ≠ .CONTINUE) :
    Decided decision S q s (n + d) := by
  rw [Stream.slice_append] at hs
  refine ⟨⟨by omega, hlen, ?_, ?_⟩, hs⟩
  · show decision (S.slice q (n + d)) ≠ .CONTINUE
    rwa [hs]
  · intro m hm hlt
    rw [not_not]
    by_cases hmn : m ≤ n
    · exact hnone m hm hmn
    · obtain ⟨j, rfl⟩ := Nat.exists_eq_add_of_le (Nat.le_of_not_le hmn)
      rw [← Stream.slice_append]
      exact hmin j (by omega) (by omega)

inductive Fared (lib : TokenizerLibrary) (decision : Bytes → Tokenizer.Status) (S : Stream UInt8)
    (q : ℕ) (tokenizer₀ : lib.Instance) (n k : ℕ) : Tokenizer.Result → lib.Instance → Prop
  | undecided {c : ℕ} {tokenizer' : lib.Instance}
      (hfed : lib.Fed tokenizer₀ (S.slice q (n + k)) tokenizer')
      (hnone : Undecided decision S q (n + k)) :
      Fared lib decision S q tokenizer₀ n k ⟨.CONTINUE, c⟩ tokenizer'
  | accepted {c : ℕ} {tokenizer' : lib.Instance} (hle : c ≤ k)
      (hacc : Decided decision S q .ACCEPTED (n + c)) :
      Fared lib decision S q tokenizer₀ n k ⟨.ACCEPTED, c⟩ tokenizer'
  | failed {c d : ℕ} {tokenizer' : lib.Instance} (hd : 0 < d) (hle : d ≤ k)
      (hfail : Decided decision S q .FAIL (n + d)) :
      Fared lib decision S q tokenizer₀ n k ⟨.FAIL, c⟩ tokenizer'

theorem TokenizerLibrary.Deciding.fares {tokenizer₀ tokenizer : lib.Instance}
    (h : lib.Deciding argument decision) (hnew : lib.newTokenizer argument = .ok tokenizer₀)
    (hfed : lib.Fed tokenizer₀ (S.slice q n) tokenizer) (hnone : Undecided decision S q n)
    (hk : 0 < k) (hlen : (q + n + k : ℕ) ≤ S.length) :
    ∃ result tokenizer', lib.call tokenizer (S.slice (q + n) k) = .ok (result, tokenizer') ∧
      Fared lib decision S q tokenizer₀ n k result tokenizer' := by
  have hbuf : S.slice (q + n) k ≠ [] := fun h ↦ hk.ne' (Stream.slice_eq_nil.mp h)
  obtain ⟨result, tokenizer', hcall, hdec⟩ := h tokenizer₀ hnew _ tokenizer hfed _ hbuf
  refine ⟨result, tokenizer', hcall, ?_⟩
  have htake : ∀ m ≤ k, (S.slice (q + n) k).take m = S.slice (q + n) m :=
    fun m hm ↦ Stream.slice_take S _ hm
  have hwithin : ∀ m ≤ k, ((q + (n + m) : ℕ) : ℕ∞) ≤ S.length := by
    intro m hm
    refine le_trans ?_ hlen
    exact_mod_cast (by omega : q + (n + m) ≤ q + n + k)
  cases hdec with
  | undecided hrest =>
    rw [Stream.slice_length] at hrest
    refine .undecided ?_ ?_
    · rw [← Stream.slice_append]
      exact .more hfed hbuf hcall
    · intro m hm hle
      by_cases hmn : m ≤ n
      · exact hnone m hm hmn
      · obtain ⟨j, rfl⟩ := Nat.exists_eq_add_of_le (Nat.le_of_not_le hmn)
        rw [← Stream.slice_append, ← htake j (by omega)]
        exact hrest j (by omega) (by omega)
  | accepted hpos hle hmin hacc =>
    rw [Stream.slice_length] at hle
    rw [htake _ hle] at hacc
    refine .accepted hle (hnone.decided hpos (hwithin _ hle) ?_ hacc (by simp))
    intro m hm hlt
    rw [← htake m (by omega)]
    exact hmin m hm hlt
  | failed hpos hle hmin hfail =>
    rw [Stream.slice_length] at hle
    rw [htake _ hle] at hfail
    refine .failed hpos hle (hnone.decided hpos (hwithin _ hle) ?_ hfail (by simp))
    intro m hm hlt
    rw [← htake m (by omega)]
    exact hmin m hm hlt

/-- How the record stands in an iteration on `S` from `q` on that began with `k` bytes left
over and has read up to `p`. -/
inductive Course (decision : Bytes → Tokenizer.Status) (S : Stream UInt8)
    (argument : TokenizerArgument) (q k : ℕ) : ℕ → Solution lib → Prop
  | undecided {sol : Solution lib} {tokenizer₀ tokenizer : lib.Instance} {n : ℕ}
      (htok : sol.tokenizer = some tokenizer) (hnew : lib.newTokenizer argument = .ok tokenizer₀)
      (hs : sol.tokenizerStatus = .CONTINUE) (hout : sol.outbuf = [])
      (hfed : lib.Fed tokenizer₀ (S.slice q n) tokenizer) (hnone : Undecided decision S q n)
      (hk : k ≤ n) : Course decision S argument q k (q + n) sol
  | accepted {sol : Solution lib} {p n : ℕ} (hs : sol.tokenizerStatus = .ACCEPTED)
      (hacc : Decided decision S q .ACCEPTED n) : Course decision S argument q k p sol
  | failed {sol : Solution lib} {p n : ℕ} (hs : sol.tokenizerStatus = .FAIL)
      (hfail : Decided decision S q .FAIL n)
      (hout : S.ahead sol.outbuf p = S.rest (if n ≤ k then q else p)) :
      Course decision S argument q k p sol

theorem Course.inbuf (h : Course decision S argument q k p sol) (inbuf : Bytes) :
    Course decision S argument q k p { sol with inbuf := inbuf } := by
  cases h with
  | undecided htok hnew hs hout hfed hnone hk =>
    exact .undecided htok hnew hs hout hfed hnone hk
  | accepted hs hacc => exact .accepted hs hacc
  | failed hs hfail hout => exact .failed hs hfail hout

theorem Course.step {e : Event} (hdec : lib.Deciding argument decision)
    (h : Course decision S argument q k p sol) (hs : Solution.Step sol e sol')
    (hd : Delivery S sol.process.outFd p e p') : Course decision S argument q k p' sol' := by
  cases hs with
  | quiet he =>
    have heq := hd.unread (fun r hr ↦ by rw [hr] at he; exact he)
    rwa [heq]
  | writeFailed =>
    have heq := hd.unread (fun _ h ↦ by cases h)
    rwa [heq]
  | wrote =>
    have heq := hd.unread (fun _ h ↦ by cases h)
    rw [heq]
    exact h.inbuf _
  | readFailed =>
    cases hd with
    | failed => exact h
    | other => exact h
  | readNothing =>
    rw [hd.read_nothing]
    exact h
  | readChunk hcont hbuf hlen =>
    cases h with
    | accepted hs => rw [hs] at hcont; cases hcont
    | failed hs => rw [hs] at hcont; cases hcont
    | @undecided _ tokenizer₀ tokenizer n htok hnew _ hout hfed hnone hk =>
      obtain ⟨m, hm, hle, rfl, rfl⟩ := hd.read_chunk hbuf
      obtain ⟨result, tokenizer', hcall, hfares⟩ := hdec.fares hnew hfed hnone hm hle
      cases hfares with
      | undecided hfed' hnone' =>
        rw [Nat.add_assoc]
        have htok' : (sol.absorb (S.slice (q + n) m)).tokenizer = some tokenizer' := by
          simp [Solution.absorb, htok, hcall]
        refine .undecided htok' hnew ?_ ?_ hfed' hnone' (by omega)
        · simp [Solution.absorb, htok, hcall]
        · simp [Solution.absorb, htok, hcall, hout]
      | accepted hle' hacc =>
        refine .accepted ?_ hacc
        simp [Solution.absorb, htok, hcall]
      | @failed _ d _ hpos hle' hfail =>
        refine .failed ?_ hfail ?_
        · simp [Solution.absorb, htok, hcall]
        · rw [if_neg (by omega)]
          simp [Solution.absorb, htok, hcall, hout]

theorem Course.path (hdec : lib.Deciding argument decision)
    (h : Course decision S argument q k p sol) (hs : Path Solution.Step sol tr sol')
    (hd : Path (Delivery S sol.process.outFd) p tr p') :
    Course decision S argument q k p' sol' := by
  induction hs generalizing p with
  | nil =>
    cases hd
    exact h
  | cons hstep hs ih =>
    cases hd with
    | cons hd hds =>
      rw [← hstep.process_eq] at hds
      exact ih (h.step hdec hstep hd) hds

theorem Course.begun {limits : ResourceLimits} (hdec : lib.Deciding argument decision)
    (hout : sol.outbuf = S.slice q k) (hlen : (q + k : ℕ) ≤ S.length)
    (hb : sol.Begun argument limits sol') : Course decision S argument q k (q + k) sol' := by
  have hfed (tokenizer₀ : lib.Instance) : lib.Fed tokenizer₀ (S.slice q 0) tokenizer₀ := by
    rw [Stream.slice_zero]
    exact .new
  have hfirst (tokenizer₀ : lib.Instance) (hnew : lib.newTokenizer argument = .ok tokenizer₀)
      (hne : sol.outbuf ≠ []) : ∃ result tokenizer',
        lib.call tokenizer₀ sol.outbuf = .ok (result, tokenizer') ∧
          Fared lib decision S q tokenizer₀ 0 k result tokenizer' := by
    rw [hout] at hne
    have hk : 0 < k := Nat.pos_of_ne_zero (fun h0 ↦ hne (Stream.slice_eq_nil.mpr h0))
    rw [hout]
    exact hdec.fares hnew (hfed tokenizer₀) undecided_zero hk hlen
  cases hb with
  | fresh hnew hempty =>
    rw [hout, Stream.slice_eq_nil] at hempty
    subst hempty
    refine .undecided rfl hnew rfl ?_ (hfed _) undecided_zero le_rfl
    rw [Solution.opened, hout, Stream.slice_zero]
  | failed hnew hne hcall =>
    obtain ⟨result, tokenizer', hcall', hfares⟩ := hfirst _ hnew hne
    rw [hcall'] at hcall
    cases hcall
    cases hfares with
    | failed hpos hle hfail =>
      refine .failed rfl hfail ?_
      rw [if_pos (by omega)]
      simpa [Solution.opened, hout] using Stream.ahead_slice hlen
  | continued hnew hne hcall =>
    obtain ⟨result, tokenizer', hcall', hfares⟩ := hfirst _ hnew hne
    rw [hcall'] at hcall
    cases hcall
    cases hfares with
    | undecided hfed' hnone =>
      rw [Nat.zero_add] at hfed' hnone
      exact .undecided rfl hnew rfl rfl hfed' hnone le_rfl
  | accepted hnew hne hcall =>
    obtain ⟨result, tokenizer', hcall', hfares⟩ := hfirst _ hnew hne
    rw [hcall'] at hcall
    cases hcall
    cases hfares with
    | accepted hle hacc => exact .accepted rfl hacc

def Unistd.Event.chunk (fd : Fd) : Event → ℕ
  | .read fd' (.ok buf) => if fd' = fd then buf.length else 0
  | _ => 0

/-- Where the chunk ends with which the reads from `fd`, which go on from `p`, reach the place
`goal`. -/
def chunkEnd (fd : Fd) (goal p : ℕ) (tr : List Event) : ℕ :=
  tr.foldl (fun p e ↦ if goal ≤ p then p else p + e.chunk fd) p

@[simp]
theorem chunkEnd_nil {fd : Fd} {goal : ℕ} : chunkEnd fd goal p [] = p := rfl

@[simp]
theorem chunkEnd_cons {fd : Fd} {goal : ℕ} {e : Event} : chunkEnd fd goal p (e :: tr) =
    chunkEnd fd goal (if goal ≤ p then p else p + e.chunk fd) tr := rfl

@[simp]
theorem chunkEnd_append {fd : Fd} {goal : ℕ} {tr' : List Event} :
    chunkEnd fd goal p (tr ++ tr') = chunkEnd fd goal (chunkEnd fd goal p tr) tr' :=
  List.foldl_append

theorem Delivery.advances {fd : Fd} {e : Event} (h : Delivery S fd p e p') :
    p' = p + e.chunk fd := by
  cases h with
  | chunk hn hle hbuf => simp [Event.chunk, hbuf]
  | eof => simp [Event.chunk]
  | failed => rfl
  | waited => rfl
  | other he =>
    cases e with
    | read fd' r =>
      have hne : fd' ≠ fd := by simpa [Event.informs] using he
      cases r <;> simp [Event.chunk, hne]
    | _ => rfl

/-- No chunk is read from the place that was looked for on. -/
theorem Course.chunkEnd_step {e : Event} (h : Course decision S argument q k p sol)
    (hfail : Decided decision S q .FAIL n) (hs : Solution.Step sol e sol')
    (hd : Delivery S sol.process.outFd p e p') :
    (if q + n ≤ p then p else p + e.chunk sol.process.outFd) = p' := by
  rw [hd.advances]
  split
  · next hle =>
    cases hs with
    | quiet he => cases e <;> first | rfl | exact he.elim
    | writeFailed => rfl
    | wrote => rfl
    | readFailed => rfl
    | readNothing => simp [Event.chunk]
    | readChunk hcont =>
      cases h with
      | undecided htok hnew hs hout hfed hnone =>
        have hlt := hnone.lt_of_decided hfail
        omega
      | accepted hs => rw [hs] at hcont; cases hcont
      | failed hs => rw [hs] at hcont; cases hcont
  · rfl

theorem Course.chunkEnd_path (hdec : lib.Deciding argument decision)
    (h : Course decision S argument q k p sol) (hfail : Decided decision S q .FAIL n)
    (hs : Path Solution.Step sol tr sol') (hd : Path (Delivery S sol.process.outFd) p tr p') :
    chunkEnd sol.process.outFd (q + n) p tr = p' := by
  induction hs generalizing p with
  | nil =>
    cases hd
    rfl
  | cons hstep hs ih =>
    cases hd with
    | cons hd hds =>
      have hrest := ih (h.step hdec hstep hd) (by rwa [hstep.process_eq])
      rw [hstep.process_eq] at hrest
      rw [chunkEnd_cons, h.chunkEnd_step hfail hstep hd]
      exact hrest

theorem Course.ended {discardRemaining : Bool} {result : Result}
    (hdec : lib.Deciding argument decision) (h : Course decision S argument q k p sol)
    (hp : (p : ℕ∞) ≤ S.length) (he : sol.Ended discardRemaining tr result sol')
    (hassigned : .indeterminate .OK ∈ tr ∨ ∃ reply, .killer .UNFREEZE sol.process.id reply ∈ tr)
    (hlimit : result.status ≠ .REAL_TIME_LIMIT_EXCEEDED)
    (hd : Path (Delivery S sol.process.outFd) p tr p') :
    ∃ t, Course decision S argument q k p' t ∧ (t.tokenizerStatus = .CONTINUE → S.length = p') ∧
      (∀ n, Decided decision S q .FAIL n → chunkEnd sol.process.outFd (q + n) p tr = p') ∧
        result = t.judged ∧ sol' = t.closed discardRemaining := by
  cases he with
  | terminated hc hs =>
    cases hc with
    | decided => simp [hs.symm] at hassigned
    | exchanged _ hrun => exact absurd (Solution.communicate_reports hrun hs) hlimit
  | @judged t _ hc =>
    suffices hcourse : Course decision S argument q k p' t ∧
        (t.tokenizerStatus = .CONTINUE → S.length = p') ∧ ∀ n, Decided decision S q .FAIL n →
          chunkEnd sol.process.outFd (q + n) p tr = p' from
      ⟨t, hcourse.1, hcourse.2.1, hcourse.2.2, rfl, rfl⟩
    cases hc with
    | decided hs =>
      rw [delivery_unread hd (by simp)]
      refine ⟨h, fun hcont ↦ absurd hcont hs, fun n _ ↦ ?_⟩
      simp [Event.chunk]
    | exchanged hs hrun =>
      obtain ⟨hpath, hconcl⟩ := Solution.communicate_spec sol _ _ _ hrun
      cases hd with
      | cons hd hds =>
        obtain rfl := hd.unread (fun _ h ↦ by cases h)
        cases hds with
        | cons hd hds =>
          obtain rfl := hd.unread (fun _ h ↦ by cases h)
          obtain ⟨r, hd₁, hd₂⟩ := hds.split
          obtain rfl : p' = r := delivery_unread hd₂ (by simp)
          refine ⟨h.path hdec hpath hd₁, fun hcont ↦ ?_, fun n hfail ↦ ?_⟩
          · rcases hconcl .OK rfl with hne | heof
            · exact absurd hcont hne
            · rw [Solution.path_process_eq hpath] at heof
              exact delivery_eofReported hd₁ hp heof
          · have hreads := h.chunkEnd_path hdec hfail hpath hd₁
            simp [Event.chunk, hreads]

theorem Course.status (h : Course decision S argument q k p sol)
    (hdone : sol.tokenizerStatus = .CONTINUE → S.length = p) :
    sol.judged.status = .TOKENIZER_ERROR ↔ ∃ n, Decided decision S q .FAIL n := by
  cases h with
  | @undecided _ _ _ n htok hnew hs hout hfed hnone hk =>
    refine ⟨fun h ↦ by simp [Solution.judged, hs] at h, fun h ↦ ?_⟩
    obtain ⟨m, hm⟩ := h
    have hlt := hnone.lt_of_decided hm
    have hle := hm.1.2.1
    rw [hdone hs] at hle
    have hle' : q + m ≤ q + n := by exact_mod_cast hle
    omega
  | accepted hs hacc =>
    refine ⟨fun h ↦ by simp [Solution.judged, hs] at h, fun h ↦ ?_⟩
    obtain ⟨m, hm⟩ := h
    cases (hacc.unique hm).2
  | failed hs hfail hout => simpa [Solution.judged, hs] using ⟨_, hfail⟩

theorem Course.kept (h : Course decision S argument q k p sol)
    (hfail : Decided decision S q .FAIL n)
    (hdone : sol.tokenizerStatus = .CONTINUE → S.length = p) :
    S.ahead sol.outbuf p = S.rest (if n ≤ k then q else p) := by
  have hstatus := (h.status hdone).mpr ⟨n, hfail⟩
  cases h with
  | undecided htok hnew hs => simp [Solution.judged, hs] at hstatus
  | accepted hs => simp [Solution.judged, hs] at hstatus
  | failed hs hfail' hout => rwa [(hfail.unique hfail').1]

theorem Solution.iteration_spec (sol : Solution lib) (argument : TokenizerArgument)
    (limits : ResourceLimits) (msgs : List Bytes) (discardRemaining : Bool) :
    (iteration argument limits msgs discardRemaining).Ensures sol (fun tr o sol' ↦
      ∀ result, o = .returned result → ∃ t inbuf tr', tr = .newTokenizer argument true :: tr' ∧
        sol.Begun argument limits t ∧
          Ended { t with inbuf := inbuf } discardRemaining tr' result sol') := by
  refine (begin_spec sol argument limits).sequence (fun tr _ t h ↦ ?_) ?_ ?_
  · obtain ⟨-, rfl, hb⟩ := h rfl
    refine (sends_spec t msgs).sequence (fun tr' _ t' h ↦ ?_) ?_ ?_
    · obtain ⟨rfl, inbuf, rfl⟩ := h rfl
      refine (end_spec _ discardRemaining).mono (fun tr'' o sol' h result ho ↦ ?_)
      exact ⟨t, inbuf, tr'', rfl, hb, (h result ho).2⟩
    · exact fun _ _ _ _ _ h ↦ by cases h
    · exact fun _ _ _ _ h ↦ by cases h
  · exact fun _ _ _ _ _ h ↦ by cases h
  · exact fun _ _ _ _ h ↦ by cases h

namespace BrokerImpl

/-- An iteration of a solution whose output is `S`: the bytes before `q` are spent, the next
`left` are left over in its record, and the others come from the pipe, of which `upto` is
reached. It was decided by the output, that is not by the limit, and the status that `end`
compares was assigned by `communicate` or is `OK`. -/
structure Delivered (lib : TokenizerLibrary) (S : Stream UInt8) (q : ℕ)
    (argument : TokenizerArgument) where
  broker : BrokerImpl lib
  id : SolutionId
  limits : ResourceLimits
  msgs : List Bytes
  discardRemaining : Bool
  before : Solution lib
  left : ℕ
  trace : List Event
  upto : ℕ
  result : Result
  broker' : BrokerImpl lib
  after : Solution lib
  found : broker.solutions[id.toNat]? = some before
  leftover : before.outbuf = S.slice q left
  within : (q + left : ℕ) ≤ S.length
  run : (iteration id argument limits msgs discardRemaining).Executes broker trace
    (.returned result) broker'
  reads : Path (Delivery S before.process.outFd) (q + left) trace upto
  assigned : .indeterminate .OK ∈ trace ∨ ∃ reply, .killer .UNFREEZE before.process.id reply ∈ trace
  inTime : result.status ≠ .REAL_TIME_LIMIT_EXCEEDED
  put : broker'.solutions[id.toNat]? = some after

namespace Delivered

/-- What the next iteration will be fed. -/
noncomputable def awaiting (x : Delivered lib S q argument) : ℕ → Option UInt8 :=
  S.ahead x.after.outbuf x.upto

/-- Where the piece of the delivery is cut off in which a failure at the length `n` is met: what
was left over is kept whole, and a chunk is gone as far as it was read. -/
def cut (x : Delivered lib S q argument) (n : ℕ) : ℕ :=
  if n ≤ x.left then q else chunkEnd x.before.process.outFd (q + n) (q + x.left) x.trace

theorem course (x : Delivered lib S q argument) (hdec : lib.Deciding argument decision) :
    ∃ t : Solution lib, Course decision S argument q x.left x.upto t ∧
      (t.tokenizerStatus = .CONTINUE → S.length = x.upto) ∧
      (∀ n, Decided decision S q .FAIL n →
        chunkEnd x.before.process.outFd (q + n) (q + x.left) x.trace = x.upto) ∧
      x.result = t.judged ∧ x.after.outbuf = t.outbuf := by
  obtain ⟨env, henv⟩ := x.run
  rw [iteration_eq, run_solution x.found] at henv
  simp only [Execution.mk.injEq] at henv
  obtain ⟨ho, hb, htr⟩ := henv
  have hspec := ensures_iff_run.mp (Solution.iteration_spec x.before argument x.limits x.msgs
    x.discardRemaining) env x.result ho
  rw [htr] at hspec
  obtain ⟨t, inbuf, tr, htrace, hbegun, hended⟩ := hspec
  have hlt := (List.getElem?_eq_some_iff.mp x.found).1
  have hafter := x.put
  rw [← hb, List.getElem?_set_self hlt] at hafter
  have hproc := hbegun.process_eq
  have hreads := x.reads
  have hassigned := x.assigned
  rw [htrace] at hreads hassigned
  cases hreads with
  | cons hd hds =>
    obtain rfl := hd.unread (fun _ h ↦ by cases h)
    obtain ⟨t', hcourse, hdone, hchunks, hresult, hsol⟩ :=
      ((Course.begun hdec x.leftover x.within hbegun).inbuf inbuf).ended hdec x.within hended
        (by simpa [hproc] using hassigned) x.inTime (by simpa [hproc] using hds)
    refine ⟨t', hcourse, hdone, fun n hfail ↦ ?_, hresult, ?_⟩
    · have hrest := hchunks n hfail
      rw [show ({ t with inbuf := inbuf } : Solution lib).process = x.before.process from hproc]
        at hrest
      rw [htrace]
      simpa [Event.chunk] using hrest
    · rw [← Option.some.inj hafter, hsol]
      rfl

theorem status_iff (x : Delivered lib S q argument) (hdec : lib.Deciding argument decision) :
    x.result.status = .TOKENIZER_ERROR ↔ ∃ n, Decided decision S q .FAIL n := by
  obtain ⟨t, hcourse, hdone, -, hresult, -⟩ := x.course hdec
  rw [hresult]
  exact hcourse.status hdone

theorem awaiting_eq (x : Delivered lib S q argument) (hdec : lib.Deciding argument decision)
    (hfail : Decided decision S q .FAIL n) : x.awaiting = S.rest (x.cut n) := by
  obtain ⟨t, hcourse, hdone, hchunks, -, hout⟩ := x.course hdec
  rw [awaiting, hout, cut, hchunks n hfail]
  exact hcourse.kept hfail hdone

theorem cut_le (x : Delivered lib S q argument) (hdec : lib.Deciding argument decision)
    (hfail : Decided decision S q .FAIL n) : (x.cut n : ℕ∞) ≤ S.length := by
  obtain ⟨t, -, -, hchunks, -⟩ := x.course hdec
  rw [cut, hchunks n hfail]
  split
  · exact le_trans (by exact_mod_cast Nat.le_add_right q x.left) x.within
  · exact delivery_le_length x.reads x.within

/-- Two deliveries of one output leave the same behind after a failure exactly when they cut off
the piece in which it is met at one place, unless the output is endless and repeats itself. -/
theorem failure_leaves_same_iff (hdec : lib.Deciding argument decision)
    (x y : Delivered lib S q argument) :
    ((x.result.status = .TOKENIZER_ERROR ↔ y.result.status = .TOKENIZER_ERROR) ∧
      (x.result.status = .TOKENIZER_ERROR → x.awaiting = y.awaiting)) ↔
    ∀ n, Decided decision S q .FAIL n → x.cut n = y.cut n ∨
      S.length = ⊤ ∧ ∀ i, S.symbol (x.cut n + i) = S.symbol (y.cut n + i) := by
  have hx := x.status_iff hdec
  have hy := y.status_iff hdec
  have hsame {n : ℕ} (hfail : Decided decision S q .FAIL n) :=
    Stream.rest_eq_iff (x.cut_le hdec hfail) (y.cut_le hdec hfail)
  constructor
  · intro h n hfail
    rw [← hsame hfail, ← x.awaiting_eq hdec hfail, ← y.awaiting_eq hdec hfail]
    exact h.2 (hx.mpr ⟨n, hfail⟩)
  · intro h
    refine ⟨hx.trans hy.symm, fun hstatus ↦ ?_⟩
    obtain ⟨n, hfail⟩ := hx.mp hstatus
    rw [x.awaiting_eq hdec hfail, y.awaiting_eq hdec hfail]
    exact (hsame hfail).mpr (h n hfail)

end Delivered

end BrokerImpl

/-- A tokenizer for lines of text: it fails at a NUL. -/
def lineOfText : TokenizerLibrary where
  Instance := Unit
  newTokenizer _ := .ok ()
  parse _ data :=
    match data.findIdx? (fun c ↦ c == 10 || c == 0) with
    | none => .ok (0, data.length, ())
    | some pos => .ok (if data[pos]? = some 0 then -1 else 1, pos + 1, ())
  what _ := none

namespace lineOfText

def ending (data : Bytes) : Tokenizer.Status :=
  match data.getLast? with
  | some 10 => .ACCEPTED
  | some 0 => .FAIL
  | _ => .CONTINUE

theorem ending_take {data buf : Bytes} {n : ℕ} (hn : n < buf.length) :
    ending (data ++ buf.take (n + 1)) = ending [buf[n]] := by
  have hlast : (data ++ buf.take (n + 1)).getLast? = some buf[n] := by
    rw [List.getLast?_append, List.getLast?_take, if_neg (Nat.succ_ne_zero n), Nat.succ_sub_one,
      List.getElem?_eq_getElem hn]
    rfl
  rw [ending, hlast]
  rfl

theorem ending_continue {c : UInt8} (h : (c == 10 || c == 0) = false) :
    ending [c] = .CONTINUE := by
  simp only [Bool.or_eq_false_iff, beq_eq_false_iff_ne] at h
  unfold ending
  split
  · rename_i hc
    exact absurd (Option.some.inj hc) h.1
  · rename_i hc
    exact absurd (Option.some.inj hc) h.2
  · rfl

theorem call_none {buf : Bytes} (h : buf.findIdx? (fun c ↦ c == 10 || c == 0) = none) :
    lineOfText.call () buf = .ok (⟨.CONTINUE, buf.length⟩, ()) := by
  simp only [TokenizerLibrary.call, lineOfText, h]
  rfl

theorem call_some {buf : Bytes} {pos : ℕ} (hlt : pos < buf.length)
    (h : buf.findIdx? (fun c ↦ c == 10 || c == 0) = some pos) :
    lineOfText.call () buf =
      .ok (⟨if buf[pos] = 0 then .FAIL else .ACCEPTED, pos + 1⟩, ()) := by
  simp only [TokenizerLibrary.call, lineOfText, h, List.getElem?_eq_getElem hlt,
    Option.some.injEq]
  by_cases hnul : buf[pos] = 0 <;> simp [hnul]

theorem deciding (argument : TokenizerArgument) : lineOfText.Deciding argument ending := by
  intro _ _ data _ _ buf _
  have hbefore {m : ℕ}
      (h : ∀ i (hi : i < buf.length), i < m → (buf[i] == 10 || buf[i] == 0) = false)
      {j : ℕ} (hj : 0 < j) (hjm : j ≤ m) (hjl : j ≤ buf.length) :
      ending (data ++ buf.take j) = .CONTINUE := by
    obtain ⟨i, rfl⟩ := Nat.exists_eq_succ_of_ne_zero hj.ne'
    rw [ending_take hjl]
    exact ending_continue (h i hjl hjm)
  cases hfind : buf.findIdx? (fun c ↦ c == 10 || c == 0) with
  | none =>
    refine ⟨⟨.CONTINUE, buf.length⟩, (), call_none hfind, .undecided (fun m hm hle ↦ ?_)⟩
    rw [List.findIdx?_eq_none_iff] at hfind
    exact hbefore (fun i hi _ ↦ hfind buf[i] (List.getElem_mem hi)) hm hle hle
  | some pos =>
    obtain ⟨hlt, hpos, hmin⟩ := List.findIdx?_eq_some_iff_getElem.mp hfind
    have hfirst : ∀ m, 0 < m → m < pos + 1 → ending (data ++ buf.take m) = .CONTINUE :=
      fun m hm hmp ↦ hbefore (fun i hi hip ↦ by simpa using hmin i hip) hm
        (Nat.le_of_lt_succ hmp) (by omega)
    have hdecided : ending (data ++ buf.take (pos + 1)) = ending [buf[pos]] := ending_take hlt
    refine ⟨_, (), call_some hlt hfind, ?_⟩
    by_cases hnul : buf[pos] = 0
    · rw [hnul] at hdecided
      rw [if_pos hnul]
      exact .failed (Nat.succ_pos pos) hlt hfirst hdecided
    · have hnewline : buf[pos] = 10 := by simpa [hnul] using hpos
      rw [hnewline] at hdecided
      rw [if_neg hnul]
      exact .accepted (Nat.succ_pos pos) hlt hfirst hdecided

end lineOfText

namespace BrokerImpl

/-- An empty line and a text with a NUL in it. -/
def badText : Stream UInt8 where
  symbol i := [10, 97, 0, 98].getD i 0
  length := (4 : ℕ)

def holding (outbuf : Bytes) : BrokerImpl lineOfText :=
  { (ready Options.single : BrokerImpl lineOfText) with
    solutions := [{ Solution.ofProcess ⟨4, 5, 10⟩ with outbuf := outbuf }] }

/-- The text was read with the empty line, in the iteration before. -/
def heldBack : Delivered lineOfText badText 1 [] where
  broker := holding [97, 0, 98]
  id := 0
  limits := {}
  msgs := []
  discardRemaining := false
  before := { Solution.ofProcess ⟨4, 5, 10⟩ with outbuf := [97, 0, 98] }
  left := 3
  trace := [.newTokenizer [] true, .indeterminate .OK]
  upto := 4
  result := ⟨.TOKENIZER_ERROR, []⟩
  broker' := { holding [97, 0, 98] with
    solutions := [{ Solution.ofProcess ⟨4, 5, 10⟩ with
      tokenizerStatus := .FAIL, outbuf := [97, 0, 98] }] }
  after := { Solution.ofProcess ⟨4, 5, 10⟩ with
    tokenizerStatus := .FAIL, outbuf := [97, 0, 98] }
  found := rfl
  leftover := rfl
  within := ENat.natCast_le_natCast.mpr (by omega : 1 + 3 ≤ 4)
  run := ⟨[{}, {}], by cbv⟩
  reads := .cons (.other rfl) (.one (.other rfl))
  assigned := .inl (by simp)
  inTime := by simp
  put := rfl

def awoken : List Event :=
  [.newTokenizer [] true, .indeterminate .OK, .killer .UNFREEZE 10 (.ok .OK), .now 0,
    .epollCreate1 (.ok ()), .epollCtlAdd 4 { fd := 4, EPOLLOUT := true } (.ok ()),
    .epollCtlAdd 5 { fd := 5, EPOLLIN := true } (.ok ()), .now 0,
    .epollWait (.ok [{ fd := 5, EPOLLIN := true }]), .now 0]

theorem awoken_reads : Path (Delivery badText 5) 1 awoken 1 := by
  refine .cons (.other rfl) (.cons (.other rfl) (.cons (.other rfl) (.cons (.other rfl)
    (.cons (.other rfl) (.cons (.other rfl) (.cons (.other rfl) (.cons (.other rfl)
    (.cons (.waited ?_) (.one (.other rfl))))))))))
  intro events hevents ev hev hfd hin
  cases hevents
  rw [List.mem_singleton.mp hev] at hin
  cases hin

def asleep : List Event := [.epollCtlDel 5 (.ok ()), .killer .FREEZE 10 (.ok .OK)]

theorem asleep_reads : Path (Delivery badText 5) 4 asleep 4 :=
  .cons (.other rfl) (.one (.other rfl))

/-- The text is read in the iteration itself, in `chunks`. -/
def readIn (chunks : List Bytes) (kept : Bytes)
    (run : (iteration 0 [] {} [] false).Executes (holding [])
      (awoken ++ chunks.map (fun buf ↦ .read 5 (.ok buf)) ++ asleep)
      (.returned ⟨.TOKENIZER_ERROR, []⟩)
      { holding [] with solutions := [{ Solution.ofProcess ⟨4, 5, 10⟩ with
        tokenizerStatus := .FAIL, result := kept }] })
    (reads : Path (Delivery badText 5) 1 (chunks.map (fun buf ↦ .read 5 (.ok buf))) 4) :
    Delivered lineOfText badText 1 [] where
  broker := holding []
  id := 0
  limits := {}
  msgs := []
  discardRemaining := false
  before := Solution.ofProcess ⟨4, 5, 10⟩
  left := 0
  trace := awoken ++ chunks.map (fun buf ↦ Event.read 5 (.ok buf)) ++ asleep
  upto := 4
  result := ⟨.TOKENIZER_ERROR, []⟩
  broker' := { holding [] with
    solutions := [{ Solution.ofProcess ⟨4, 5, 10⟩ with
      tokenizerStatus := .FAIL, result := kept }] }
  after := { Solution.ofProcess ⟨4, 5, 10⟩ with tokenizerStatus := .FAIL, result := kept }
  found := rfl
  leftover := rfl
  within := ENat.natCast_le_natCast.mpr (by omega : 1 + 0 ≤ 4)
  run := run
  reads := (awoken_reads.append reads).append asleep_reads
  assigned := .inl (by simp [awoken])
  inTime := by simp
  put := rfl

def readOnce : Delivered lineOfText badText 1 [] :=
  readIn [[97, 0, 98]] []
    ⟨List.replicate 13
      { epollWait := .ok [{ fd := 5, EPOLLIN := true }], read := .ok [97, 0, 98] }, by cbv⟩
    (.one (.chunk (n := 3) (by decide) (ENat.natCast_le_natCast.mpr (by omega : 4 ≤ 4)) rfl))

def readTwice : Delivered lineOfText badText 1 [] :=
  readIn [[97], [0, 98]] [97]
    ⟨List.replicate 11 { epollWait := .ok [{ fd := 5, EPOLLIN := true }], read := .ok [97] } ++
      List.replicate 3 { read := .ok [0, 98] }, by cbv⟩
    (.cons (.chunk (n := 1) (by decide) (ENat.natCast_le_natCast.mpr (by omega : 2 ≤ 4)) rfl)
      (.one (.chunk (n := 2) (by decide) (ENat.natCast_le_natCast.mpr (by omega : 4 ≤ 4)) rfl)))

theorem failure_leaves_same_read_twice :
    (readOnce.result.status = .TOKENIZER_ERROR ↔ readTwice.result.status = .TOKENIZER_ERROR) ∧
    (readOnce.result.status = .TOKENIZER_ERROR → readOnce.awaiting = readTwice.awaiting) := by
  refine (Delivered.failure_leaves_same_iff (lineOfText.deciding []) _ _).mpr (fun n hfail ↦ ?_)
  have hn : n = 2 := by
    refine hfail.1.unique ⟨by decide, ?_, by decide, ?_⟩
    · exact (by decide : (3 : ℕ∞) ≤ 4)
    · intro m hm hlt
      obtain rfl : m = 1 := by omega
      decide
  subst hn
  exact .inl rfl

/-- The failing text is offered again if it was left over, and gone if it was read. -/
theorem failing_read_is_lost :
    lineOfText.Deciding [] lineOfText.ending ∧
    heldBack.result.status = .TOKENIZER_ERROR ∧
    readOnce.result.status = .TOKENIZER_ERROR ∧
    heldBack.awaiting 0 = some 97 ∧ readOnce.awaiting 0 = none := by
  refine ⟨lineOfText.deciding [], rfl, rfl, rfl, ?_⟩
  simp [Delivered.awaiting, readOnce, readIn, Stream.ahead, Stream.rest, badText,
    Solution.ofProcess]

end BrokerImpl

end FlowctlGame
