import FlowctlGame.Session
import FlowctlGame.Interaction.Stream

namespace FlowctlGame

open Interaction Unistd Broker

variable {lib : TokenizerLibrary} {accepts : TokenizerArgument → Bytes → Prop}
  {S : Stream UInt8} {fd : Fd} {e : Event} {tr : List Event} {argument : TokenizerArgument}
  {current : Option TokenizerArgument} {p p' q n k : ℕ} {sol sol' : Solution lib}

/-- An instance that has answered `CONTINUE` to every chunk of `data`. -/
inductive TokenizerLibrary.Fed (lib : TokenizerLibrary) (tokenizer₀ : lib.Instance) :
    Bytes → lib.Instance → Prop
  | new : Fed lib tokenizer₀ [] tokenizer₀
  | more {data buf : Bytes} {tokenizer tokenizer' : lib.Instance} {n : ℕ}
      (h : Fed lib tokenizer₀ data tokenizer) (hbuf : buf ≠ [])
      (hcall : lib.call tokenizer buf = .ok (⟨.CONTINUE, n⟩, tokenizer')) :
      Fed lib tokenizer₀ (data ++ buf) tokenizer'

/-- A streaming tokenizer decides on the concatenation of what it was fed: it accepts at
the shortest non-empty prefix that is accepted and never fails. -/
def TokenizerLibrary.Streaming (lib : TokenizerLibrary) (argument : TokenizerArgument)
    (accepts : Bytes → Prop) : Prop :=
  ∀ tokenizer₀, lib.newTokenizer argument = .ok tokenizer₀ →
    ∀ data tokenizer, lib.Fed tokenizer₀ data tokenizer → ∀ buf, buf ≠ [] →
      (∃ n tokenizer', lib.call tokenizer buf = .ok (⟨.CONTINUE, n⟩, tokenizer') ∧
        ∀ m, 0 < m → m ≤ buf.length → ¬ accepts (data ++ buf.take m)) ∨
      ∃ n tokenizer', lib.call tokenizer buf = .ok (⟨.ACCEPTED, n⟩, tokenizer') ∧
        0 < n ∧ n ≤ buf.length ∧ accepts (data ++ buf.take n) ∧
          ∀ m, 0 < m → m < n → ¬ accepts (data ++ buf.take m)

/-- The calls that learn something of what was written to the pipe read at `fd`. -/
def Unistd.Event.informs (fd : Fd) : Event → Bool
  | .read fd' _ => fd' = fd
  | .epollWait _ => true
  | _ => false

/-- How a call moves the position up to which the output `S` of a solution was read from
`fd`. The end of `S` is reported only at the end. -/
inductive Delivery (S : Stream UInt8) (fd : Fd) : ℕ → Event → ℕ → Prop
  | chunk {p n : ℕ} {buf : Bytes} (hn : 0 < n) (hle : (p + n : ℕ) ≤ S.length)
      (hbuf : buf = S.slice p n) : Delivery S fd p (.read fd (.ok buf)) (p + n)
  | eof {p : ℕ} (hp : S.length = p) : Delivery S fd p (.read fd (.ok [])) p
  | failed {p : ℕ} {e : Errno} : Delivery S fd p (.read fd (.error e)) p
  | waited {p : ℕ} {r : Except Errno (List EpollEvent)}
      (hr : ∀ events, r = .ok events → ∀ ev ∈ events, ev.fd = fd → ev.EPOLLIN = false →
        S.length = p) : Delivery S fd p (.epollWait r) p
  | other {p : ℕ} {e : Event} (he : e.informs fd = false) : Delivery S fd p e p

theorem Delivery.unread (h : Delivery S fd p e p') (hread : ∀ r, e ≠ .read fd r) : p' = p := by
  cases h with
  | chunk => exact absurd rfl (hread _)
  | eof => rfl
  | failed => rfl
  | waited => rfl
  | other => rfl

theorem Delivery.read_chunk {buf : Bytes} (h : Delivery S fd p (.read fd (.ok buf)) p')
    (hbuf : buf ≠ []) : ∃ n, 0 < n ∧ (p + n : ℕ) ≤ S.length ∧ buf = S.slice p n ∧ p' = p + n := by
  cases h with
  | chunk hn hle hslice => exact ⟨_, hn, hle, hslice, rfl⟩
  | eof => exact absurd rfl hbuf
  | other he => simp [Event.informs] at he

theorem Delivery.read_nothing (h : Delivery S fd p (.read fd (.ok [])) p') : p' = p := by
  cases h with
  | chunk hn hle hslice => exact absurd (Stream.slice_eq_nil.mp hslice.symm) hn.ne'
  | eof => rfl
  | other => rfl

theorem Delivery.le (h : Delivery S fd p e p') : p ≤ p' := by
  cases h with
  | chunk => omega
  | _ => exact Nat.le_refl _

theorem Delivery.le_length (h : Delivery S fd p e p') (hp : (p : ℕ∞) ≤ S.length) :
    (p' : ℕ∞) ≤ S.length := by
  cases h with
  | chunk hn hle => exact hle
  | _ => exact hp

theorem delivery_le (h : Path (Delivery S fd) p tr p') : p ≤ p' := by
  induction h with
  | nil => exact Nat.le_refl _
  | cons hd h ih => exact hd.le.trans ih

theorem delivery_le_length (h : Path (Delivery S fd) p tr p') (hp : (p : ℕ∞) ≤ S.length) :
    (p' : ℕ∞) ≤ S.length :=
  h.preserves (I := fun p : ℕ ↦ (p : ℕ∞) ≤ S.length) (fun _ _ _ ↦ Delivery.le_length) hp

theorem delivery_unread (h : Path (Delivery S fd) p tr p') (hread : ∀ r, .read fd r ∉ tr) :
    p' = p := by
  induction h with
  | nil => rfl
  | cons hd h ih =>
    simp only [List.mem_cons, not_or] at hread
    have hstep := hd.unread (fun r hr ↦ (hread r).1 hr.symm)
    rw [← hstep]
    exact ih (fun r ↦ (hread r).2)

theorem delivery_eofReported (h : Path (Delivery S fd) p tr p') (hp : (p : ℕ∞) ≤ S.length)
    (heof : EofReported fd tr) : S.length = p' := by
  obtain ⟨events, ev, hmem, hev, hfd, hin⟩ := heof
  obtain ⟨before, after, rfl⟩ := List.append_of_mem hmem
  obtain ⟨r, hbefore, hrest⟩ := h.split
  cases hrest with
  | @cons _ r' _ _ _ hd hafter =>
    have hr : r' = r := hd.unread (fun _ h ↦ by cases h)
    subst hr
    have hlen : S.length = r' := by
      cases hd with
      | waited hr => exact hr events rfl ev hev hfd hin
      | other he => cases he
    have hle := delivery_le_length hafter (delivery_le_length hbefore hp)
    have hge := delivery_le hafter
    rw [hlen] at hle ⊢
    have hle' : p' ≤ r' := by exact_mod_cast hle
    have heq : r' = p' := by omega
    rw [heq]

theorem TokenizerLibrary.Streaming.slice {accepts : Bytes → Prop}
    {tokenizer₀ tokenizer : lib.Instance} (h : lib.Streaming argument accepts)
    (hnew : lib.newTokenizer argument = .ok tokenizer₀)
    (hfed : lib.Fed tokenizer₀ (S.slice q n) tokenizer)
    (hnone : ∀ m, 0 < m → m ≤ n → ¬ accepts (S.slice q m)) (hk : 0 < k)
    (hlen : (q + n + k : ℕ) ≤ S.length) :
    (∃ c tokenizer', lib.call tokenizer (S.slice (q + n) k) = .ok (⟨.CONTINUE, c⟩, tokenizer') ∧
      lib.Fed tokenizer₀ (S.slice q (n + k)) tokenizer' ∧
        ∀ m, 0 < m → m ≤ n + k → ¬ accepts (S.slice q m)) ∨
    ∃ c tokenizer', lib.call tokenizer (S.slice (q + n) k) = .ok (⟨.ACCEPTED, c⟩, tokenizer') ∧
      c ≤ k ∧ S.Shortest accepts q (n + c) := by
  have hbuf : S.slice (q + n) k ≠ [] := fun h ↦ hk.ne' (Stream.slice_eq_nil.mp h)
  -- a piece that ends inside the chunk is what was fed followed by a part of the chunk
  have hsplit : ∀ m, n < m → m ≤ n + k →
      S.slice q n ++ (S.slice (q + n) k).take (m - n) = S.slice q m := by
    intro m hnm hmk
    rw [Stream.slice_take S (q + n) (by omega : m - n ≤ k), Stream.slice_append]
    congr 1
    omega
  rcases h tokenizer₀ hnew _ tokenizer hfed _ hbuf with
    ⟨c, tokenizer', hcall, hrej⟩ | ⟨c, tokenizer', hcall, hpos, hle, hacc, hmin⟩
  · refine .inl ⟨c, tokenizer', hcall, ?_, ?_⟩
    · rw [← Stream.slice_append]
      exact .more hfed hbuf hcall
    · intro m hm hmk
      by_cases hmn : m ≤ n
      · exact hnone m hm hmn
      · rw [← hsplit m (by omega) hmk]
        exact hrej (m - n) (by omega) (by rw [Stream.slice_length]; omega)
  · rw [Stream.slice_length] at hle
    refine .inr ⟨c, tokenizer', hcall, hle, by omega, ?_, ?_, ?_⟩
    · refine le_trans ?_ hlen
      exact_mod_cast (by omega : q + (n + c) ≤ q + n + k)
    · have hacc' := hsplit (n + c) (by omega) (by omega)
      rw [Nat.add_sub_cancel_left] at hacc'
      rwa [← hacc']
    · intro m hm hmc
      by_cases hmn : m ≤ n
      · exact hnone m hm hmn
      · rw [← hsplit m (by omega) (by omega)]
        exact hmin (m - n) (by omega) (by omega)

namespace SplitChar

theorem call_of_mem {c : UInt8} {buf : Bytes} {pos : ℕ}
    (h : buf.findIdx? (· = c) = some pos) :
    library.call ⟨c⟩ buf = .ok (⟨.ACCEPTED, pos + 1⟩, ⟨c⟩) := by
  simp [TokenizerLibrary.call, library, parse, h]

theorem call_of_not_mem {c : UInt8} {buf : Bytes} (h : buf.findIdx? (· = c) = none) :
    library.call ⟨c⟩ buf = .ok (⟨.CONTINUE, buf.length⟩, ⟨c⟩) := by
  simp only [TokenizerLibrary.call, library, parse, h]
  rfl

theorem fed_eq {c : UInt8} {data : Bytes} {t : library.Instance}
    (h : library.Fed ⟨c⟩ data t) : t = ⟨c⟩ := by
  induction h with
  | new => rfl
  | @more _ buf t t' n hfed hbuf hcall ih =>
    rw [ih] at hcall
    cases hfind : buf.findIdx? (· = c) with
    | none =>
      rw [call_of_not_mem hfind] at hcall
      cases hcall
      rfl
    | some pos =>
      rw [call_of_mem hfind] at hcall
      cases hcall

theorem streaming (c : UInt8) :
    library.Streaming [c] (fun data ↦ data.getLast? = some c) := by
  intro t₀ hnew data t hfed buf hbuf
  have ht₀ : t₀ = ⟨c⟩ := by
    cases hnew
    rfl
  subst ht₀
  have ht := fed_eq hfed
  subst ht
  have hlast : ∀ m, 0 < m → m ≤ buf.length →
      ((data ++ buf.take m).getLast? = some c ↔ buf[m - 1]? = some c) := by
    intro m hm hle
    have hlt : m - 1 < buf.length := by omega
    rw [List.getLast?_append, List.getLast?_take, if_neg hm.ne', List.getElem?_eq_getElem hlt]
    rfl
  cases hfind : buf.findIdx? (· = c) with
  | none =>
    rw [List.findIdx?_eq_none_iff] at hfind
    refine .inl ⟨buf.length, ⟨c⟩, call_of_not_mem (by simpa using hfind), fun m hm hle hacc ↦ ?_⟩
    have hc := hfind c (List.mem_of_getElem? ((hlast m hm hle).mp hacc))
    simp at hc
  | some pos =>
    have hcall := call_of_mem hfind
    obtain ⟨hlt, hpos, hmin⟩ := List.findIdx?_eq_some_iff_getElem.mp hfind
    refine .inr ⟨pos + 1, ⟨c⟩, hcall, Nat.succ_pos pos, hlt, ?_, fun m hm hmp hacc ↦ ?_⟩
    · refine (hlast _ (Nat.succ_pos pos) hlt).mpr ?_
      rw [Nat.succ_sub_one, List.getElem?_eq_getElem hlt]
      simpa using hpos
    · have hc := (hlast m hm (by omega)).mp hacc
      rw [List.getElem?_eq_getElem (by omega)] at hc
      exact hmin (m - 1) (by omega) (by simpa using hc)

end SplitChar

/-- Where the bytes of `S` are: those before `q` went into earlier tokens, those from `p`
on are unread, and the record holds the ones between. -/
inductive Standing (accepts : TokenizerArgument → Bytes → Prop) (S : Stream UInt8) :
    Option TokenizerArgument → ℕ → ℕ → Solution lib → Prop
  | idle {sol : Solution lib} {q k : ℕ} (htok : sol.tokenizer = none)
      (hout : sol.outbuf = S.slice q k) : Standing accepts S none q (q + k) sol
  | undecided {sol : Solution lib} {argument : TokenizerArgument}
      {tokenizer₀ tokenizer : lib.Instance} {q n : ℕ} (htok : sol.tokenizer = some tokenizer)
      (hnew : lib.newTokenizer argument = .ok tokenizer₀)
      (hs : sol.tokenizerStatus = .CONTINUE)
      (hfed : lib.Fed tokenizer₀ (S.slice q n) tokenizer)
      (hres : sol.result = S.slice q n) (hout : sol.outbuf = [])
      (hnone : ∀ m, 0 < m → m ≤ n → ¬ accepts argument (S.slice q m)) :
      Standing accepts S (some argument) q (q + n) sol
  | decided {sol : Solution lib} {argument : TokenizerArgument} {q n k : ℕ}
      (htok : sol.tokenizer ≠ none) (hs : sol.tokenizerStatus = .ACCEPTED)
      (hshort : S.Shortest (accepts argument) q n) (hres : sol.result = S.slice q n)
      (hout : sol.outbuf = S.slice (q + n) k) :
      Standing accepts S (some argument) q (q + n + k) sol

theorem Standing.inbuf (h : Standing accepts S current q p sol) (inbuf : Bytes) :
    Standing accepts S current q p { sol with inbuf := inbuf } := by
  cases h with
  | idle htok hout => exact .idle htok hout
  | undecided htok hnew hs hfed hres hout hnone =>
    exact .undecided htok hnew hs hfed hres hout hnone
  | decided htok hs hshort hres hout => exact .decided htok hs hshort hres hout

theorem Standing.step (hstream : lib.Streaming argument (accepts argument))
    (h : Standing accepts S (some argument) q p sol) (hp : (p : ℕ∞) ≤ S.length)
    (hs : Solution.Step sol e sol') (hd : Delivery S sol.process.outFd p e p') :
    Standing accepts S (some argument) q p' sol' := by
  cases hs with
  | quiet he =>
    have heq := hd.unread (fun r hr ↦ by rw [hr] at he; exact he)
    rwa [heq]
  | writeFailed =>
    have heq := hd.unread (fun _ h ↦ by cases h)
    rwa [heq]
  | wrote =>
    have heq := hd.unread (fun _ h ↦ by cases h)
    rw [heq]
    exact h.inbuf _
  | readFailed =>
    cases hd with
    | failed => exact h
    | other => exact h
  | readNothing =>
    rw [hd.read_nothing]
    exact h
  | readChunk hcont hbuf hlen =>
    cases h with
    | decided htok hs => rw [hs] at hcont; cases hcont
    | @undecided _ _ tokenizer₀ tokenizer _ n htok hnew _ hfed hres hout hnone =>
      obtain ⟨k, hk, hle, rfl, rfl⟩ := hd.read_chunk hbuf
      rcases hstream.slice hnew hfed hnone hk hle with
        ⟨c, tokenizer', hcall, hfed', hnone'⟩ | ⟨c, tokenizer', hcall, hck, hshort⟩
      · rw [Nat.add_assoc]
        have htok' : (sol.absorb (S.slice (q + n) k)).tokenizer = some tokenizer' := by
          simp [Solution.absorb, htok, hcall]
        refine .undecided htok' hnew ?_ hfed' ?_ ?_ hnone'
        · simp [Solution.absorb, htok, hcall]
        · simp [Solution.absorb, htok, hcall, hres, Stream.slice_append]
        · simp [Solution.absorb, htok, hcall, hout]
      · have hpos : q + n + k = q + (n + c) + (k - c) := by omega
        rw [hpos]
        refine .decided ?_ ?_ hshort ?_ ?_
        · simp [Solution.absorb, htok, hcall]
        · simp [Solution.absorb, htok, hcall]
        · simp [Solution.absorb, htok, hcall, hres, Stream.slice_take S _ hck,
            Stream.slice_append]
        · simp [Solution.absorb, htok, hcall, hout, Stream.slice_drop S _ hck, Nat.add_assoc]

theorem Standing.path (hstream : lib.Streaming argument (accepts argument))
    (h : Standing accepts S (some argument) q p sol) (hp : (p : ℕ∞) ≤ S.length)
    (hs : Path Solution.Step sol tr sol') (hd : Path (Delivery S sol.process.outFd) p tr p') :
    Standing accepts S (some argument) q p' sol' := by
  induction hs generalizing p with
  | nil =>
    cases hd
    exact h
  | cons hstep hs ih =>
    cases hd with
    | cons hd hds =>
      rw [← hstep.process_eq] at hds
      exact ih (h.step hstream hp hstep hd) (hd.le_length hp) hds

theorem Standing.begun {limits : ResourceLimits}
    (hstream : lib.Streaming argument (accepts argument))
    (h : Standing accepts S none q p sol) (hp : (p : ℕ∞) ≤ S.length)
    (hb : sol.Begun argument limits sol') : Standing accepts S (some argument) q p sol' := by
  cases h with
  | @idle _ _ k htok hout =>
    have hzero : ∀ m, 0 < m → m ≤ 0 → ¬ accepts argument (S.slice q m) := by omega
    have hfirst (tokenizer₀ : lib.Instance) (hnew : lib.newTokenizer argument = .ok tokenizer₀)
        (hne : sol.outbuf ≠ []) := by
      rw [hout] at hne
      have hk : 0 < k := Nat.pos_of_ne_zero (fun h0 ↦ hne (Stream.slice_eq_nil.mpr h0))
      have hfed : lib.Fed tokenizer₀ (S.slice q 0) tokenizer₀ := by
        rw [Stream.slice_zero]
        exact .new
      exact hstream.slice hnew hfed hzero hk hp
    simp only [Nat.add_zero, Nat.zero_add] at hfirst
    cases hb with
    | fresh hnew hempty =>
      rw [hout, Stream.slice_eq_nil] at hempty
      subst hempty
      refine .undecided rfl hnew rfl ?_ (by simp [Solution.opened])
        (by simp [Solution.opened, hout]) hzero
      rw [Stream.slice_zero]
      exact .new
    | failed hnew hne hcall =>
      rw [hout] at hcall
      rcases hfirst _ hnew hne with ⟨c, t, hcall', -⟩ | ⟨c, t, hcall', -⟩
      · rw [hcall'] at hcall; cases hcall
      · rw [hcall'] at hcall; cases hcall
    | continued hnew hne hcall =>
      rw [hout] at hcall
      rcases hfirst _ hnew hne with ⟨c, t, hcall', hfed, hnone⟩ | ⟨c, t, hcall', -⟩
      · rw [hcall'] at hcall
        cases hcall
        exact .undecided rfl hnew rfl hfed hout rfl hnone
      · rw [hcall'] at hcall; cases hcall
    | @accepted _ _ c hnew hne hcall =>
      rw [hout] at hcall
      rcases hfirst _ hnew hne with ⟨d, t, hcall', -⟩ | ⟨d, t, hcall', hck, hshort⟩
      · rw [hcall'] at hcall; cases hcall
      · rw [hcall'] at hcall
        cases hcall
        have hpos : q + k = q + c + (k - c) := by omega
        rw [hpos]
        refine .decided (by simp [Solution.opened]) rfl hshort ?_ ?_
        · simp [hout, Stream.slice_take S _ hck]
        · simp [hout, Stream.slice_drop S _ hck]

def report : Option Bytes → Result
  | some token => ⟨.OK, token⟩
  | none => ⟨.EOF_ERROR, []⟩

theorem Standing.judged (h : Standing accepts S (some argument) q p sol) (discardRemaining : Bool)
    (hdone : sol.tokenizerStatus = .CONTINUE → S.length = p) :
    ∃ token q', Stream.Cut accepts S q (argument, token) q' ∧ sol.judged = report token ∧
      Standing accepts S none q' p (sol.closed discardRemaining) := by
  cases h with
  | @undecided _ _ _ _ _ n htok hnew hs hfed hres hout hnone =>
    have hlen := hdone hs
    refine ⟨none, q + n, .eof hlen ?_, by simp [Solution.judged, hs, report], ?_⟩
    · intro m hm hmn
      rw [hlen] at hmn
      have hmn' : q + m ≤ q + n := by exact_mod_cast hmn
      exact hnone m hm (by omega)
    · refine .idle (k := 0) rfl ?_
      simp [Solution.closed, hout]
  | @decided _ _ _ n k htok hs hshort hres hout =>
    refine ⟨some (S.slice q n), q + n, .token hshort, ?_, .idle rfl hout⟩
    simp [Solution.judged, hs, report, hres]

theorem Standing.opened (h : Standing accepts S current q p sol) (htok : sol.tokenizer ≠ none) :
    ∃ argument, current = some argument := by
  cases h with
  | idle htok' => exact absurd htok' htok
  | undecided => exact ⟨_, rfl⟩
  | decided => exact ⟨_, rfl⟩

theorem Standing.closed (h : Standing accepts S current q p sol) (htok : sol.tokenizer = none) :
    current = none := by
  cases h with
  | idle => rfl
  | undecided htok' => cases htok.symm.trans htok'
  | decided htok' => exact absurd htok htok'

theorem Standing.ended {discardRemaining : Bool} {result : Result}
    (hstream : lib.Streaming argument (accepts argument))
    (h : Standing accepts S (some argument) q p sol) (hp : (p : ℕ∞) ≤ S.length)
    (he : sol.Ended discardRemaining tr result sol')
    (hrunning : ∀ reply, .killer .TERMINATE sol.process.id reply ∉ tr)
    (hd : Path (Delivery S sol.process.outFd) p tr p') :
    ∃ token q', Stream.Cut accepts S q (argument, token) q' ∧ result = report token ∧
      Standing accepts S none q' p' sol' := by
  cases he with
  | @terminated _ _ _ reply hc hs =>
    have hmem := hrunning (.ok reply)
    simp [hc.process_eq] at hmem
  | judged hc =>
    cases hc with
    | decided hs =>
      have hp' := delivery_unread hd (by simp)
      rw [hp']
      exact h.judged discardRemaining (fun hcont ↦ absurd hcont hs)
    | @exchanged t tr _ _ _ _ hs hrun =>
      obtain ⟨hpath, hconcl⟩ := Solution.communicate_spec sol _ _ _ hrun
      have hquit := hconcl .OK rfl
      cases hd with
      | cons hd hds =>
        obtain rfl := hd.unread (fun _ h ↦ by cases h)
        cases hds with
        | cons hd hds =>
          obtain rfl := hd.unread (fun _ h ↦ by cases h)
          obtain ⟨r, hd₁, hd₂⟩ := hds.split
          obtain rfl : p' = r := delivery_unread hd₂ (by simp)
          refine (h.path hstream hp hpath hd₁).judged discardRemaining (fun hcont ↦ ?_)
          rcases hquit with hne | heof
          · exact absurd hcont hne
          · rw [Solution.path_process_eq hpath] at heof
            exact delivery_eofReported hd₁ hp heof

namespace BrokerImpl

/-- The iterations of a solution that were ended, each as the tokenizer argument with which
it began and the result; `current` is the argument of an iteration that is open. -/
def iterations (b : BrokerImpl lib) (id : SolutionId) :
    Option TokenizerArgument → List Exchange → List (TokenizerArgument × Result)
  | _, [] => []
  | current, x :: h =>
    if x.command.id = id then
      match b.opens x.command, current, x.outcome with
      | some (argument, _), _, _ => b.iterations id (some argument) h
      | none, some argument, .returned (some result) =>
        (argument, result) :: b.iterations id none h
      | none, current, _ => b.iterations id current h
    else b.iterations id current h

variable {id : SolutionId} {b b' : BrokerImpl lib} {h : List Exchange} {process : Process}
  {processes : List Process}

theorem iterations_congr {c : BrokerImpl lib} (hbc : b.opens = c.opens) :
    b.iterations id current h = c.iterations id current h := by
  induction h generalizing current with
  | nil => rfl
  | cons x h ih => simp only [iterations, hbc, ih]

/-- What a run is asked to provide for the solution `id` that runs as `process`: it is not
terminated and its tokenizers are streaming. -/
structure Favours (b : BrokerImpl lib) (id : SolutionId) (process : Process)
    (accepts : TokenizerArgument → Bytes → Prop) (x : Exchange) : Prop where
  running : x.command.id = id → ∀ reply, .killer .TERMINATE process.id reply ∉ x.trace
  streaming : x.command.id = id → ∀ argument limits,
    b.opens x.command = some (argument, limits) → lib.Streaming argument (accepts argument)

/-- The record of the solution `id` stands at `q` and `p` in the stream `S`, and the tokenizer
of its open iteration is streaming. -/
def Stands (b : BrokerImpl lib) (id : SolutionId) (process : Process)
    (accepts : TokenizerArgument → Bytes → Prop) (S : Stream UInt8)
    (current : Option TokenizerArgument) (q p : ℕ) : Prop :=
  ∃ sol, b.solutions[id.toNat]? = some sol ∧ sol.process = process ∧
    (∀ argument, current = some argument → lib.Streaming argument (accepts argument)) ∧
      Standing accepts S current q p sol

theorem stands_effect {c : BrokerImpl lib} {x : Exchange} {reply : Option Result}
    (h : sol.process = process)
    (hopen : ∀ argument, current = some argument → lib.Streaming argument (accepts argument))
    (hstand : Standing accepts S current q p sol) (hid : x.command.id = id)
    (hr : x.outcome = .returned reply) (he : b.Effect x.command sol x.trace reply sol')
    (hsol' : c.solutions[id.toNat]? = some sol') (hfav : b.Favours id process accepts x)
    (hlen : (p : ℕ∞) ≤ S.length) (hd : Path (Delivery S process.outFd) p x.trace p') :
    ∃ current' cuts q', c.Stands id process accepts S current' q' p' ∧
      Path (Stream.Cut accepts S) q cuts q' ∧ ∀ h, b.iterations id current (x :: h) =
        cuts.map (fun cut ↦ (cut.1, report cut.2)) ++ b.iterations id current' h := by
  have h' := he.process_eq.trans h
  have hrunning := hfav.running hid
  have hstr := hfav.streaming hid
  obtain ⟨command, outcome, tr⟩ := x
  dsimp only at hid hr he hd hrunning hstr
  subst hr
  cases he with
  | @begun _ _ _ argument limits hc htok hb =>
    have hstream := hstr argument limits hc
    rw [delivery_unread hd (by simp)]
    obtain rfl := hstand.closed htok
    refine ⟨some argument, [], q, ⟨_, hsol', h', ?_, hstand.begun hstream hlen hb⟩, .nil q, ?_⟩
    · intro a ha
      cases ha
      exact hstream
    · intro h
      simp [iterations, hid, hc]
  | sent htok =>
    rw [delivery_unread hd (by simp)]
    refine ⟨current, [], q, ⟨_, hsol', h', hopen, hstand.inbuf _⟩, .nil q, fun h ↦ ?_⟩
    cases current <;> simp [iterations, opens, hid]
  | ended htok hended =>
    obtain ⟨argument, rfl⟩ := hstand.opened htok
    rw [← h] at hrunning hd
    obtain ⟨token, q', hcut, rfl, hstand'⟩ :=
      hstand.ended (hopen argument rfl) hlen hended hrunning hd
    refine ⟨none, [(argument, token)], q', ⟨_, hsol', h', (fun _ h ↦ by cases h), hstand'⟩,
      .one hcut, ?_⟩
    intro h
    simp [iterations, opens, hid]
  | terminated => simp [h] at hrunning

theorem Stands.step {c : BrokerImpl lib} {x : Exchange}
    (h : b.Stands id process accepts S current q p)
    (hdisjoint : ∀ j other, processes[j]? = some other → j ≠ id.toNat →
      process.outFd ≠ other.outFd)
    (hmap : b.solutions.map (·.process) = processes) (hx : Answers b x c)
    (hfav : b.Favours id process accepts x) (hlen : (p : ℕ∞) ≤ S.length)
    (hd : Path (Delivery S process.outFd) p x.trace p') :
    ∃ current' cuts q', c.Stands id process accepts S current' q' p' ∧
      Path (Stream.Cut accepts S) q cuts q' ∧ ∀ h, b.iterations id current (x :: h) =
        cuts.map (fun cut ↦ (cut.1, report cut.2)) ++ b.iterations id current' h := by
  obtain ⟨sol, hsol, hproc, hopen, hstand⟩ := h
  rcases answers_at hx hsol with
    ⟨hid, sol', reply, hr, he, hsol'⟩ | ⟨hid, hsol', other, hother, haddr⟩
  · exact stands_effect hproc hopen hstand hid hr he hsol' hfav hlen hd
  · have hother' : processes[x.command.id.toNat]? = some other.process := by
      rw [← hmap, List.getElem?_map, hother, Option.map_some]
    have hne : x.command.id.toNat ≠ id.toNat := fun h ↦ hid (UInt64.toNat_inj.mp h)
    rw [delivery_unread hd (fun reply hmem ↦ hdisjoint _ _ hother' hne (haddr _ hmem))]
    refine ⟨current, [], q, ⟨sol, hsol', hproc, hopen, hstand⟩, .nil q, fun h ↦ ?_⟩
    simp [iterations, hid]

theorem Stands.run (h₀ : b.Stands id process accepts S current q p)
    (hdisjoint : ∀ j other, processes[j]? = some other → j ≠ id.toNat →
      process.outFd ≠ other.outFd)
    (hp : Path Answers b h b') (hmap : b.solutions.map (·.process) = processes)
    (hfav : ∀ x ∈ h, b.Favours id process accepts x) (hlen : (p : ℕ∞) ≤ S.length)
    (hread : Path (Delivery S process.outFd) p (h.flatMap (·.trace)) p') :
    ∃ cuts q', Path (Stream.Cut accepts S) q cuts q' ∧
      b.iterations id current h = cuts.map (fun cut ↦ (cut.1, report cut.2)) := by
  induction hp generalizing current p q with
  | nil b => exact ⟨[], q, .nil q, rfl⟩
  | @cons b c _ x h hx hp ih =>
    rw [List.flatMap_cons] at hread
    obtain ⟨r, hd, hread'⟩ := hread.split
    have hopens := serves_opens hx.1
    obtain ⟨hx₀, hfav'⟩ := List.forall_mem_cons.mp hfav
    have hrest : ∀ y ∈ h, c.Favours id process accepts y := by
      intro y hy
      obtain ⟨hrun, hstr⟩ := hfav' y hy
      exact ⟨hrun, by rwa [hopens]⟩
    obtain ⟨current', cuts, q₁, h₁, hcuts, heq⟩ := h₀.step hdisjoint hmap hx hx₀ hlen hd
    obtain ⟨cuts', q', hcuts', heq'⟩ := ih h₁ ((answers_processes hx).trans hmap) hrest
      (delivery_le_length hd hlen) hread'
    refine ⟨cuts ++ cuts', q', hcuts.append hcuts', ?_⟩
    rw [heq, iterations_congr hopens.symm, heq', List.map_append]

theorem iterations_ready {options : Options} {h : List Exchange} (hw : options.WellFormed)
    (hp : Path Answers (ready options : BrokerImpl lib) h b')
    (hid : options.solutions[id.toNat]? = some process)
    (hfav : ∀ x ∈ h, (ready options : BrokerImpl lib).Favours id process accepts x)
    (hread : Path (Delivery S process.outFd) 0 (h.flatMap (·.trace)) p) :
    ∃ cuts q, Path (Stream.Cut accepts S) 0 cuts q ∧
      (ready options : BrokerImpl lib).iterations id none h =
        cuts.map (fun cut ↦ (cut.1, report cut.2)) := by
  have hstand : Standing accepts S none 0 (0 + 0)
      (readySolution options.defaultResourceLimits process : Solution lib) :=
    .idle rfl (by simp [readySolution, Solution.ofProcess])
  have hstands : (ready options : BrokerImpl lib).Stands id process accepts S none 0 (0 + 0) :=
    ⟨_, ready_solution hid, rfl, (fun _ h ↦ by cases h), hstand⟩
  exact hstands.run (fun j other hj hne ↦ (hw.disjoint hid hj hne.symm).2) hp
    (ready_processes options) hfav (by simp) hread

/-- The results of a solution are those of the reference that cuts its output stream
token by token, whatever the reads it arrived in. -/
theorem results_are_cuts {options : Options} {startup : List Event}
    (hw : options.WellFormed) (h₀ : Started options startup b) (hp : Path Answers b h b')
    (hid : options.solutions[id.toNat]? = some process)
    (hfav : ∀ x ∈ h, b.Favours id process accepts x)
    (hread : Path (Delivery S process.outFd) 0 (h.flatMap (·.trace)) p) :
    ∃ cuts q, Path (Stream.Cut accepts S) 0 cuts q ∧
      b.iterations id none h = cuts.map (fun cut ↦ (cut.1, report cut.2)) := by
  obtain ⟨-, rfl⟩ := started_spec h₀
  exact iterations_ready hw hp hid hfav hread

def twoLines : Stream UInt8 where
  symbol i := [97, 10, 98, 10].getD i 0
  length := 4

def twoLinesAnswer : Answer where
  epollWait := .ok [{ fd := 5, EPOLLIN := true }]
  read := .ok [97, 10, 98, 10]

def twoLinesRun : List Exchange :=
  ((ready Options.single : BrokerImpl SplitChar.library).replay
    [(.begin₁ 0, [twoLinesAnswer]), (.end' 0 false, List.replicate 12 twoLinesAnswer),
      (.begin₁ 0, [twoLinesAnswer]), (.end' 0 false, [twoLinesAnswer])]).1

theorem twoLinesRun_trace : twoLinesRun.flatMap (·.trace) =
    [.newTokenizer [10] true, .indeterminate .OK, .killer .UNFREEZE 10 (.ok .OK), .now 0,
      .epollCreate1 (.ok ()), .epollCtlAdd 4 { fd := 4, EPOLLOUT := true } (.ok ()),
      .epollCtlAdd 5 { fd := 5, EPOLLIN := true } (.ok ()), .now 0,
      .epollWait (.ok [{ fd := 5, EPOLLIN := true }]), .now 0, .read 5 (.ok [97, 10, 98, 10]),
      .killer .FREEZE 10 (.ok .OK), .newTokenizer [10] true, .indeterminate .OK] := rfl

theorem twoLinesRun_delivery :
    Path (Delivery twoLines 5) 0 (twoLinesRun.flatMap (·.trace)) 4 := by
  have hall : (4 : ℕ∞) ≤ twoLines.length := le_refl 4
  rw [twoLinesRun_trace]
  refine .cons (.other rfl) (.cons (.other rfl) (.cons (.other rfl) (.cons (.other rfl)
    (.cons (.other rfl) (.cons (.other rfl) (.cons (.other rfl) (.cons (.other rfl)
    (.cons (.waited ?_) (.cons (.other rfl) (.cons (.chunk (n := 4) (by decide) hall rfl)
    (.cons (.other rfl) (.cons (.other rfl) (.one (.other rfl))))))))))))))
  intro events hevents ev hev hfd hin
  cases hevents
  rw [List.mem_singleton.mp hev] at hin
  cases hin

theorem results_are_cuts_two_lines :
    ∃ cuts q, Path (Stream.Cut (fun argument data ↦ data.getLast? = argument[0]?) twoLines)
      0 cuts q ∧ (ready Options.single : BrokerImpl SplitChar.library).iterations 0 none
        twoLinesRun = cuts.map (fun cut ↦ (cut.1, report cut.2)) := by
  refine results_are_cuts single_wellFormed single_started (replay_path _ _ (by decide)) rfl ?_
    twoLinesRun_delivery
  intro x hx
  refine ⟨fun _ reply hmem ↦ ?_, fun _ argument limits hopens ↦ ?_⟩
  · have htrace := List.mem_flatMap.mpr ⟨x, hx, hmem⟩
    have hno : .killer .TERMINATE 10 reply ∉ twoLinesRun.flatMap (·.trace) := by
      simp [twoLinesRun_trace]
    exact hno htrace
  · have hcommand : x.command ∈ [.begin₁ 0, .end' 0 false, .begin₁ 0, .end' 0 false] :=
      List.mem_map_of_mem (f := Exchange.command) hx
    have hopened : ∀ c ∈ [Command.begin₁ 0, .end' 0 false, .begin₁ 0, .end' 0 false],
        (ready Options.single : BrokerImpl SplitChar.library).opens c = some (argument, limits) →
          [10] = argument := by
      simpa [opens, ready, new, Options.single] using fun h _ ↦ h
    rw [← hopened _ hcommand hopens]
    exact SplitChar.streaming 10

end BrokerImpl

end FlowctlGame
