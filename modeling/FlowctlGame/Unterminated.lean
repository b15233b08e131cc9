import FlowctlGame.Framing

namespace FlowctlGame.BrokerTextInterface

open Broker BrokerInterface Interaction Program Text

section Token

variable {α : Type} {parse : Bytes → Option α} {a : α} {text : Bytes} {t x : UInt8}
  {ia : InputArchive}

theorem takes_step_unknown {buf : Bytes} (hx : decodeByte x = none) (hne : x ≠ 10) :
    (unescapeStep (.ESCAPE, buf)).Takes ia [some x] (.raised (.abort (unknownEscape x))) ia := by
  have hdecode := hx
  unfold decodeByte at hdecode
  split_ifs at hdecode with h₁ h₂
  refine (takes_ask id id (some x) ia).bind_silent ?_
  simp only [id_eq, hne, ne_eq, not_true_eq_false, false_and, or_false, if_false, h₁, h₂]
  exact takes_raise _ ia

theorem takes_unescape_unknown (hend : ia.end_ = false) (hx : decodeByte x = none) (hne : x ≠ 10) :
    unescape.Takes ia ((escape text ++ [92, x]).map some) (.raised (.abort (unknownEscape x)))
      ia := by
  have hinit : UnescapeState.INIT ≠ .ESCAPE := by decide
  obtain ⟨state', hs', -, htakes⟩ := takes_unescapeText ia text [] hinit
  refine takes_get_bind ?_
  simp only [hend, Bool.false_eq_true, if_false, List.map_append]
  refine Takes.bind_raised (htakes _ _ _ ?_)
  rw [show ([92, x] : Bytes).map some = [some 92] ++ [some x] from rfl]
  refine .loop_next (takes_step_backslash hs') (fun h ↦ by cases h) ?_
  exact .loop_raised (takes_step_unknown hx hne)

theorem takes_unescape_unfinished {answer : Option UInt8} (hend : ia.end_ = false)
    (hanswer : answer = none ∨ answer = some 10) :
    unescape.Takes ia ((escape text ++ [92]).map some ++ [answer])
      (.raised (.abort "state != ESCAPE")) ia := by
  have hinit : UnescapeState.INIT ≠ .ESCAPE := by decide
  obtain ⟨state', hs', -, htakes⟩ := takes_unescapeText ia text [] hinit
  have hstep : (unescapeStep (.ESCAPE, [] ++ text)).Takes ia [answer]
      (.returned (.inr (.ESCAPE, [] ++ text, answer))) ia := by
    rcases hanswer with rfl | rfl
    · exact takes_step_eof
    · exact takes_step_end (.inl rfl)
  have hloop : (Program.loop unescapeStep (.INIT, [])).Takes ia
      ((escape text).map some ++ ([some 92] ++ [answer]))
      (.returned (.ESCAPE, [] ++ text, answer)) ia :=
    htakes _ _ _ (.loop_next (takes_step_backslash hs') (fun h ↦ by cases h) (.loop_last hstep))
  refine takes_get_bind ?_
  simp only [hend, Bool.false_eq_true, if_false]
  rw [List.map_append, List.append_assoc]
  refine hloop.bind_silent ?_
  simp only [unescapeEnd, reduceCtorEq, and_false, if_false, if_true]
  exact takes_raise _ ia

/-- At the end of the stream a token without an escape counts as no token. -/
theorem takes_unescape_plain (hend : ia.end_ = false) (h : 92 ∉ escape text) :
    unescape.Takes ia ((escape text).map some ++ [none]) (.raised .endOfFileError) ia := by
  have hinit : UnescapeState.INIT ≠ .ESCAPE := by decide
  obtain ⟨state', hs', hstate, htakes⟩ := takes_unescapeText ia text [] hinit
  refine takes_get_bind ?_
  simp only [hend, Bool.false_eq_true, if_false]
  refine (htakes _ _ _ (.loop_last takes_step_eof)).bind_silent ?_
  simp only [unescapeEnd, hstate.mpr ⟨rfl, h⟩, and_self, if_true]
  exact takes_raise _ ia

theorem takes_unescape_escaped (hend : ia.end_ = false) (h : 92 ∈ escape text) :
    unescape.Takes ia ((escape text).map some ++ [none]) (.returned text)
      { ia with end_ := true } := by
  have hinit : UnescapeState.INIT ≠ .ESCAPE := by decide
  obtain ⟨state', hs', hstate, htakes⟩ := takes_unescapeText ia text [] hinit
  have hne : state' ≠ .INIT := fun heq ↦ (hstate.mp heq).2 h
  refine takes_get_bind ?_
  simp only [hend, Bool.false_eq_true, if_false]
  refine (htakes _ _ _ (.loop_last takes_step_eof)).bind_silent ?_
  simp only [unescapeEnd, hne, and_false, if_false, hs']
  exact (takes_modify _ ia).bind_pure rfl

theorem takes_load_unknown (hx : decodeByte x = none) (hne : x ≠ 10) :
    (load parse).Takes {} ((escape text ++ [92, x]).map some)
      (.raised (.abort (unknownEscape x))) {} := by
  refine takes_get_bind ?_
  exact (takes_unescape_unknown rfl hx hne).bind_raised

theorem takes_load_unfinished {answer : Option UInt8} (h : answer = none ∨ answer = some 10) :
    (load parse).Takes {} ((escape text ++ [92]).map some ++ [answer])
      (.raised (.abort "state != ESCAPE")) {} := by
  refine takes_get_bind ?_
  exact (takes_unescape_unfinished rfl h).bind_raised

theorem takes_load_plain (h : 92 ∉ escape text) :
    (load parse).Takes {} ((escape text).map some ++ [none]) (.raised .endOfFileError) {} := by
  refine takes_get_bind ?_
  exact (takes_unescape_plain rfl h).bind_raised

def lexicalCast (parse : Bytes → Option α) (text : Bytes) : Outcome Error α :=
  match parse text with
  | some a => .returned a
  | none => .raised .badLexicalCast

theorem takes_load_text {used : List (Option UInt8)}
    (h : unescape.Takes {} used (.returned text) ia) :
    (load parse).Takes {} used (lexicalCast parse text) ia := by
  refine takes_get_bind (h.bind_silent ?_)
  unfold lexicalCast
  cases parse text with
  | some a => exact takes_pure a ia
  | none => exact takes_raise _ ia

end Token

section Command

variable {casts : Casts} {texts args : List Bytes} {used : List (Option UInt8)} {ia : InputArchive}

def separated (texts : List Bytes) : Bytes := texts.flatMap (fun text ↦ escape text ++ [32])

/-- The first token names a type and the second is an id, as far as there are such tokens. -/
def Castable (casts : Casts) (texts : List Bytes) : Prop :=
  (∀ type ∈ texts[0]?, (casts.type.parse type).isSome = true) ∧
    ∀ id ∈ texts[1]?, (casts.id.parse id).isSome = true

theorem takes_vector_separated {v : List Bytes} {o : Outcome Error (List Bytes)}
    (h : (Program.loop loadVectorStep (v ++ args)).Takes {} used o ia) :
    (Program.loop loadVectorStep v).Takes {} ((separated args).map some ++ used) o ia := by
  induction args generalizing v with
  | nil => simpa [separated] using h
  | cons arg args ih =>
    have hlist : (separated (arg :: args)).map some ++ used =
        (escape arg ++ [32]).map some ++ ((separated args).map some ++ used) := by
      simp [separated]
    rw [hlist]
    refine .loop_next (takes_loadVectorStep (takes_load rfl)) (by simp) (ih ?_)
    simpa using h

/-- After tokens that it accepts, `recvCommand` reads one more; what comes of it if that is the
last one is `k`. -/
theorem recvCommand_next (h : Castable casts texts) :
    ∃ (α : Type) (parse : Bytes → Option α) (k : α → Outcome Error Command),
      (∀ used e ia, (load parse).Takes {} used (.raised e) ia →
        (recvCommand casts).Takes {} ((separated texts).map some ++ used) (.raised e) ia) ∧
      (∀ used a, used ≠ [] → (load parse).Takes {} used (.returned a) { end_ := true } →
        ∃ ia, (recvCommand casts).Takes {} ((separated texts).map some ++ used) (k a) ia) ∧
      (∀ a, k a = .raised .endOfFileError ↔ texts = []) ∧
      (texts = [] → ∀ text, (parse text).isSome = (casts.type.parse text).isSome) := by
  obtain ⟨htype, hid⟩ := h
  match texts with
  | [] =>
    refine ⟨_, casts.type.parse, fun _ ↦ .raised .endOfFileError, ?_, ?_, by simp, fun _ _ ↦ rfl⟩
    · intro used e ia hload
      exact hload.bind_raised
    · intro used a hused hload
      have hmissing : (load casts.id.parse).Takes { end_ := true } [] (.raised .endOfFileError)
          { end_ := true } := takes_get_bind (takes_raise _ _)
      exact ⟨_, hload.bind_silent hmissing.bind_raised⟩
  | [type] =>
    obtain ⟨a, ha⟩ := Option.isSome_iff_exists.mp (htype type rfl)
    have hfirst : (load casts.type.parse).Takes {} ((escape type ++ [32]).map some)
        (.returned a) {} := takes_load ha
    have hlist : (separated [type]).map some = (escape type ++ [32]).map some := by
      simp [separated]
    refine ⟨_, casts.id.parse, fun id ↦ .returned ⟨a, id, []⟩, ?_, ?_, by simp, by simp⟩
    · intro used e ia hload
      rw [hlist]
      exact hfirst.bind hload.bind_raised
    · intro used id hused hload
      rw [hlist]
      exact ⟨_, hfirst.bind (hload.bind_silent (takes_loadVector_nil.bind_pure rfl))⟩
  | type :: id :: args =>
    obtain ⟨a, ha⟩ := Option.isSome_iff_exists.mp (htype type rfl)
    obtain ⟨b, hb⟩ := Option.isSome_iff_exists.mp (hid id rfl)
    have hfirst : (load casts.type.parse).Takes {} ((escape type ++ [32]).map some)
        (.returned a) {} := takes_load ha
    have hsecond : (load casts.id.parse).Takes {} ((escape id ++ [32]).map some)
        (.returned b) {} := takes_load hb
    have hlist : (separated (type :: id :: args)).map some =
        (escape type ++ [32]).map some ++ ((escape id ++ [32]).map some ++
          (separated args).map some) := by
      simp [separated]
    refine ⟨_, some, fun arg ↦ .returned ⟨a, b, args ++ [arg]⟩, ?_, ?_, by simp, by simp⟩
    · intro used e ia hload
      have hloop : (Program.loop loadVectorStep args).Takes {} used (.raised e) ia :=
        .loop_raised (takes_get_bind hload.bind_raised)
      have hvector : loadVector.Takes {} ((separated args).map some ++ used) (.raised e) ia :=
        takes_get_bind (takes_vector_separated (v := []) hloop).bind_raised
      rw [hlist, List.append_assoc, List.append_assoc]
      exact hfirst.bind (hsecond.bind hvector.bind_raised)
    · intro used arg hused hload
      have hlast : (Program.loop loadVectorStep (args ++ [arg])).Takes { end_ := true } []
          (.returned (args ++ [arg])) { end_ := true } :=
        .loop_last (takes_get_bind (takes_pure _ _))
      have hstep : (loadVectorStep args).Takes {} used (.returned (.inl (args ++ [arg])))
          { end_ := true } := takes_get_bind (hload.bind_pure rfl)
      have hloop := hstep.loop_next hused hlast
      rw [List.append_nil] at hloop
      have hvector : loadVector.Takes {} ((separated args).map some ++ used)
          (.returned (args ++ [arg])) { end_ := true, last_ := true } :=
        takes_get_bind ((takes_vector_separated (v := []) hloop).bind_silent
          ((takes_modify _ _).bind_pure rfl))
      rw [hlist, List.append_assoc, List.append_assoc]
      exact ⟨_, hfirst.bind (hsecond.bind (hvector.bind_pure rfl))⟩

/-- What comes of a last token that is read whole does not depend on what ends it. -/
theorem recvCommand_last (h : Castable casts texts) (last : Bytes) :
    ∃ o : Outcome Error Command,
      (∀ used, used ≠ [] → unescape.Takes {} used (.returned last) { end_ := true } →
        ∃ ia, (recvCommand casts).Takes {} ((separated texts).map some ++ used) o ia) ∧
      (o = .raised .endOfFileError ↔ texts = [] ∧ (casts.type.parse last).isSome = true) := by
  obtain ⟨α, parse, k, hraised, hreturned, heof, hparse⟩ := recvCommand_next h
  have hload (used : List (Option UInt8))
      (htakes : unescape.Takes {} used (.returned last) { end_ := true }) :
      (load parse).Takes {} used (lexicalCast parse last) { end_ := true } :=
    takes_load_text htakes
  unfold lexicalCast at hload
  cases hlast : parse last with
  | some a =>
    rw [hlast] at hload
    refine ⟨k a, fun used hused htakes ↦ hreturned used a hused (hload used htakes), ?_⟩
    rw [heof]
    constructor
    · intro hnil
      exact ⟨hnil, by rw [← hparse hnil, hlast]; rfl⟩
    · exact fun h ↦ h.1
  | none =>
    rw [hlast] at hload
    refine ⟨.raised .badLexicalCast, fun used _ htakes ↦ ⟨_, hraised _ _ _ (hload used htakes)⟩, ?_⟩
    constructor
    · intro h
      cases h
    · intro h
      obtain ⟨hnil, hsome⟩ := h
      rw [← hparse hnil, hlast] at hsome
      cases hsome

theorem recvCommand_rejected (h : ¬ Castable casts texts) :
    ∃ used more, (separated texts).map some = used ++ more ∧
      (recvCommand casts).Takes {} used (.raised .badLexicalCast) {} := by
  have hbad {α : Type} {parse : Bytes → Option α} {text : Bytes} (hnone : parse text = none) :
      (load parse).Takes {} ((escape text ++ [32]).map some) (.raised .badLexicalCast) {} := by
    have hload : (load parse).Takes {} ((escape text ++ [32]).map some) (lexicalCast parse text)
        {} := takes_load_text (takes_unescape rfl (.inr rfl))
    rwa [lexicalCast, hnone] at hload
  match texts with
  | [] => simp [Castable] at h
  | type :: texts =>
    cases htype : casts.type.parse type with
    | none =>
      exact ⟨_, (separated texts).map some, by simp [separated], (hbad htype).bind_raised⟩
    | some a =>
      match texts with
      | [] => simp [Castable, htype] at h
      | id :: texts =>
        cases hid : casts.id.parse id with
        | some b => simp [Castable, htype, hid] at h
        | none =>
          exact ⟨_, (separated texts).map some, by simp [separated],
            (takes_load htype).bind (hbad hid).bind_raised⟩

end Command

section Line

variable {casts : Casts} {body : Bytes} {texts : List Bytes}

def lastRaw (body : Bytes) : Bytes := (escaping.raws body).getLastD []

def earlierRaws (body : Bytes) : List Bytes := (escaping.raws body).dropLast

def Readable (casts : Casts) (raws : List Bytes) : Prop :=
  ∃ texts, raws = texts.map escape ∧ Castable casts texts

/-- The last token has an escape, or is not reached, or is the name of a type that lacks an
id. -/
def EndsAlike (casts : Casts) (body : Bytes) : Prop :=
  92 ∈ lastRaw body ∨ ¬ Readable casts (earlierRaws body) ∨
    earlierRaws body = [] ∧ (casts.type.parse (lastRaw body)).isSome = true

def offeredEnd (body : Bytes) : List (Option UInt8) := body.map some ++ [none]

theorem escape_injective : Function.Injective escape := by
  intro text text' h
  have htokens := Escaping.tokens_join (e := escaping) (List.cons_ne_nil text [])
  have htokens' := Escaping.tokens_join (e := escaping) (List.cons_ne_nil text' [])
  have hjoin : escaping.join [text] = escaping.join [text'] := h
  rw [hjoin, htokens'] at htokens
  simpa using htokens.symm

theorem readable_map (texts : List Bytes) :
    Readable casts (texts.map escape) ↔ Castable casts texts := by
  constructor
  · intro h
    obtain ⟨texts', heq, hcast⟩ := h
    rwa [List.map_injective_iff.mpr escape_injective heq]
  · exact fun h ↦ ⟨texts, rfl, h⟩

theorem escape_eq_self {text : Bytes} (h : 92 ∉ escape text) : escape text = text := by
  induction text with
  | nil => rfl
  | cons c text ih =>
    have hcons : escape (c :: text) = escapeByte c ++ escape text := by simp [escape]
    rw [hcons, List.mem_append, not_or] at h
    rw [hcons, ih h.2]
    rcases escapeByte_cases c with ⟨x, hx⟩ | ⟨hx, -⟩
    · simp [hx] at h
    · rw [hx]
      rfl

/-- A token with an unknown escape has a backslash if it is the last, and is not read
otherwise. -/
theorem endsAlike_of_unknown {raws : List Bytes} {text unread : Bytes} {x : UInt8}
    (hx : decodeByte x = none) (h : escaping.raws body =
      texts.map escape ++ (escape text ++ 92 :: x :: unread) :: raws) : EndsAlike casts body := by
  cases raws with
  | nil =>
    refine .inl ?_
    simp [lastRaw, h]
  | cons raw raws =>
    refine .inr (.inl (fun hreadable ↦ ?_))
    obtain ⟨texts', heq, -⟩ := hreadable
    have hmem : escape text ++ 92 :: x :: unread ∈ texts'.map escape := by
      rw [← heq, earlierRaws, h, List.dropLast_append_cons]
      simp
    obtain ⟨text', -, htext⟩ := List.mem_map.mp hmem
    have hbad : ∀ y ∈ (x :: unread).head?, escaping.decode y = none := by
      intro y hy
      cases hy
      exact hx
    exact Escaping.encodeText_ne hbad htext

theorem alike_rejected {more : List (Option UInt8)} {tail : Bytes} (h : ¬ Castable casts texts) :
    ((recvCommand casts).run {} (offeredEnd (separated texts ++ tail))).outcome =
      ((recvCommand casts).run {} (offeredLine (separated texts ++ tail) more)).outcome := by
  obtain ⟨used, rest, heq, htakes⟩ := recvCommand_rejected h
  have hend : offeredEnd (separated texts ++ tail) = used ++ (rest ++ tail.map some ++ [none]) := by
    simp [offeredEnd, heq]
  have hline : offeredLine (separated texts ++ tail) more =
      used ++ (rest ++ (tail ++ [10]).map some ++ more) := by
    simp [offeredLine, heq]
  rw [htakes.outcome_append hend, htakes.outcome_append hline]

theorem alike_unknown {more : List (Option UInt8)} {text rest tail : Bytes} {x : UInt8}
    (hx : decodeByte x = none) (hne : x ≠ 10) (htail : tail = escape text ++ 92 :: x :: rest) :
    ((recvCommand casts).run {} (offeredEnd (separated texts ++ tail))).outcome =
      ((recvCommand casts).run {} (offeredLine (separated texts ++ tail) more)).outcome := by
  by_cases hcast : Castable casts texts
  · obtain ⟨α, parse, k, hraised, -⟩ := recvCommand_next hcast
    have hload : (load parse).Takes {} ((escape text ++ [92, x]).map some)
        (.raised (.abort (unknownEscape x))) {} := takes_load_unknown hx hne
    have htakes := hraised _ _ _ hload
    have hend : offeredEnd (separated texts ++ tail) =
        (separated texts).map some ++ (escape text ++ [92, x]).map some ++
          (rest.map some ++ [none]) := by
      simp [offeredEnd, htail]
    have hline : offeredLine (separated texts ++ tail) more =
        (separated texts).map some ++ (escape text ++ [92, x]).map some ++
          ((rest ++ [10]).map some ++ more) := by
      simp [offeredLine, htail]
    rw [htakes.outcome_append hend, htakes.outcome_append hline]
  · exact alike_rejected hcast

theorem alike_unfinished {more : List (Option UInt8)} {text tail : Bytes}
    (htail : tail = escape text ++ [92]) :
    ((recvCommand casts).run {} (offeredEnd (separated texts ++ tail))).outcome =
      ((recvCommand casts).run {} (offeredLine (separated texts ++ tail) more)).outcome := by
  by_cases hcast : Castable casts texts
  · obtain ⟨α, parse, k, hraised, -⟩ := recvCommand_next hcast
    have hload {answer : Option UInt8} (h : answer = none ∨ answer = some 10) :
        (load parse).Takes {} ((escape text ++ [92]).map some ++ [answer])
          (.raised (.abort "state != ESCAPE")) {} := takes_load_unfinished h
    have hend : offeredEnd (separated texts ++ tail) =
        (separated texts).map some ++ ((escape text ++ [92]).map some ++ [none]) ++ [] := by
      simp [offeredEnd, htail]
    have hline : offeredLine (separated texts ++ tail) more =
        (separated texts).map some ++ ((escape text ++ [92]).map some ++ [some 10]) ++ more := by
      simp [offeredLine, htail]
    rw [(hraised _ _ _ (hload (.inl rfl))).outcome_append hend,
      (hraised _ _ _ (hload (.inr rfl))).outcome_append hline]
  · exact alike_rejected hcast

theorem alike_token_iff {more : List (Option UInt8)} {last : Bytes} (hcast : Castable casts texts) :
    ((recvCommand casts).run {} (offeredEnd (separated texts ++ escape last))).outcome =
      ((recvCommand casts).run {} (offeredLine (separated texts ++ escape last) more)).outcome ↔
        92 ∈ escape last ∨ texts = [] ∧ (casts.type.parse last).isSome = true := by
  obtain ⟨o, hwhole, heof⟩ := recvCommand_last hcast last
  have hend : offeredEnd (separated texts ++ escape last) =
      (separated texts).map some ++ ((escape last).map some ++ [none]) ++ [] := by
    simp [offeredEnd]
  have hline : offeredLine (separated texts ++ escape last) more =
      (separated texts).map some ++ (escape last ++ [10]).map some ++ more := by
    simp [offeredLine]
  obtain ⟨ia, hnewline⟩ := hwhole _ (by simp) (takes_unescape rfl (.inl rfl))
  rw [hnewline.outcome_append hline]
  by_cases hmark : 92 ∈ escape last
  · obtain ⟨ia', hescaped⟩ := hwhole _ (by simp) (takes_unescape_escaped rfl hmark)
    rw [hescaped.outcome_append hend]
    exact iff_of_true rfl (.inl hmark)
  · obtain ⟨α, parse, k, hraised, -⟩ := recvCommand_next hcast
    have hplain : (load parse).Takes {} ((escape last).map some ++ [none])
        (.raised .endOfFileError) {} := takes_load_plain hmark
    rw [(hraised _ _ _ hplain).outcome_append hend, eq_comm, heof]
    exact (or_iff_right hmark).symm

/-- Where the stream ends after a line without its newline, the line is received as it is with
the newline just if its last token has an escape, or the end is not what decides. -/
theorem end_of_input_iff (casts : Casts) {body : Bytes} (more : List (Option UInt8))
    (hbody : 10 ∉ body) :
    ((recvCommand casts).run {} (offeredEnd body)).outcome =
      ((recvCommand casts).run {} (offeredLine body more)).outcome ↔ EndsAlike casts body := by
  obtain ⟨texts, tail, hline, hraws, htail⟩ :=
    Escaping.raws_cases escaping_canonical (escaping_plain hbody)
  have hseparated : body = separated texts ++ tail := hline
  have hmap : escaping.raws body = texts.map escape ++ escaping.raws tail := hraws
  rcases htail with ⟨last, rfl⟩ | ⟨text, rest, htail, hrest⟩
  · have hlast : escaping.raws body = texts.map escape ++ [escape last] := by
      rw [hmap, Escaping.raws_encodeText]
      rfl
    have hraw : lastRaw body = escape last := by simp [lastRaw, hlast]
    have hearlier : earlierRaws body = texts.map escape := by simp [earlierRaws, hlast]
    rw [EndsAlike, hraw, hearlier, readable_map, List.map_eq_nil_iff, hseparated]
    by_cases hcast : Castable casts texts
    · have hiff : 92 ∈ escape last ∨ ¬ Castable casts texts ∨
          texts = [] ∧ (casts.type.parse (escape last)).isSome = true ↔
          92 ∈ escape last ∨ texts = [] ∧ (casts.type.parse last).isSome = true := by
        by_cases hmark : 92 ∈ escape last
        · simp [hmark]
        · simp [hcast, escape_eq_self hmark]
      rw [hiff]
      exact alike_token_iff hcast
    · exact iff_of_true (alike_rejected hcast) (.inr (.inl hcast))
  · cases rest with
    | nil =>
      have hlast : escaping.raws body = texts.map escape ++ [escape text ++ [92]] := by
        rw [hmap, htail]
        exact congrArg _ (Escaping.raws_unfinished text)
      rw [hseparated]
      refine iff_of_true (alike_unfinished htail) (.inl ?_)
      rw [← hseparated]
      simp [lastRaw, hlast]
    | cons x rest =>
      have hx : decodeByte x = none := hrest x rfl
      have hne : x ≠ 10 := by
        rintro rfl
        exact hbody (by simp [hseparated, htail])
      rw [hseparated]
      refine iff_of_true (alike_unknown hx hne htail) ?_
      rw [← hseparated]
      obtain ⟨unread, raws, hmark⟩ := Escaping.raws_mark (e := escaping) text rest x
      have hlast : escaping.raws body =
          texts.map escape ++ (escape text ++ 92 :: x :: unread) :: raws := by
        rw [hmap, htail]
        exact congrArg _ hmark
      exact endsAlike_of_unknown hx hlast

/-- `SEND 0 \\n` without a newline after it. -/
theorem end_of_input_iff_escape :
    ((recvCommand decimalCasts).run {}
      (offeredEnd (ascii "SEND 0 " ++ [92, 110]))).outcome =
      ((recvCommand decimalCasts).run {}
        (offeredLine (ascii "SEND 0 " ++ [92, 110]) [])).outcome :=
  (end_of_input_iff decimalCasts [] (by decide +kernel)).mpr (.inl (by decide +kernel))

/-- The last command is lost, unless its last token happens to have an escape. -/
theorem unterminated_command_lost :
    lastRaw (ascii "END 0") = ascii "0" ∧ escaping.escapes false (ascii "0") = false ∧
    ((recvCommand decimalCasts).run {} (offeredEnd (ascii "END 0"))).outcome =
      .raised .endOfFileError ∧
    ((recvCommand decimalCasts).run {} (offeredLine (ascii "END 0") [])).outcome =
      .returned ⟨.END, 0, []⟩ ∧
    ((recvCommand decimalCasts).run {} (offeredEnd (ascii "SEND 0 " ++ [92, 110]))).outcome =
      .returned ⟨.SEND, 0, [[10]]⟩ := by
  decide +kernel

end Line

end FlowctlGame.BrokerTextInterface
