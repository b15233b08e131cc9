import FlowctlGame.Configurator

namespace FlowctlGame.BrokerImpl

open Interaction Program Unistd Broker Text

variable {lib : TokenizerLibrary} {constructed : Options}

/-- `readOptions` of the broker's `main`. -/
def readOptions (archive : Archive (fields Options.serialize) constructed)
    (file : archive.File) : Option Options :=
  archive.load file

/-- The one member that `serialize` does not name keeps the value it was constructed with. -/
theorem restored_serialize (options : Options) :
    restored (fields Options.serialize) options constructed =
      { options with defaultTokenizerArgument := constructed.defaultTokenizerArgument } := by
  simp [restored, fields, Options.serialize, Member.of]

theorem readOptions_save (archive : Archive (fields Options.serialize) constructed)
    (hc : constructed.Constructed) (options : Options) :
    readOptions archive (archive.save options) =
      some { options with defaultTokenizerArgument := [] } := by
  rw [readOptions, archive.load_save, restored_serialize, hc.defaultTokenizerArgument]

theorem readOptions_eq_iff (archive : Archive (fields Options.serialize) constructed)
    (hc : constructed.Constructed) (options : Options) :
    readOptions archive (archive.save options) = some options ↔
      options.defaultTokenizerArgument = [] := by
  rw [readOptions_save archive hc, Option.some.injEq]
  constructor
  · intro h
    rw [← h]
  · intro h
    rw [← h]

theorem run_begin₁ (b : BrokerImpl lib) (id : SolutionId) (env : List Answer) :
    (run (.begin₁ id)).run b env =
      (run (.begin₃ id b.defaultTokenizerArgument b.defaultResourceLimits)).run b env := by
  simp [run, begin₁, begin₂, run_bind, run_get, Execution.andThen]

theorem path_defaults {b b' : BrokerImpl lib} {h : List Exchange} (hp : Path Serves b h b') :
    b'.defaultTokenizerArgument = b.defaultTokenizerArgument ∧
      b'.defaultResourceLimits = b.defaultResourceLimits := by
  have hopens : b'.opens = b.opens :=
    hp.preserves (I := fun b' ↦ b'.opens = b.opens)
      (fun _ _ _ hx hb ↦ (serves_opens hx).trans hb) rfl
  have h₁ := congrFun hopens (.begin₁ 0)
  simp only [opens, Option.some.injEq, Prod.mk.injEq] at h₁
  exact h₁

/-- In every run of a broker with these options `BEGIN id` does what it would do with the
configured default argument and limits as its arguments. -/
def Honours (options : Options) (c : Configurator) : Prop :=
  ∀ (lib : TokenizerLibrary) (startup : List Event) (b₀ b : BrokerImpl lib) (h : List Exchange),
    Started options startup b₀ → Path Serves b₀ h b → ∀ id env,
      (run (.begin₁ id)).run b env =
        (run (.begin₃ id c.defaultTokenizerArgument c.defaultResourceLimits)).run b env

theorem honours_built (c : Configurator) : Honours c.configure.brokerOptions c := by
  intro lib startup b₀ b h hstart hp id env
  obtain ⟨-, rfl⟩ := started_spec hstart
  obtain ⟨hargument, hlimits⟩ := path_defaults hp
  rw [run_begin₁, hargument, hlimits]
  rfl

/-- The configuration reaches the broker unchanged exactly if no default tokenizer argument
was configured. -/
theorem configuration_arrives_iff {constructed : Options}
    (archive : Archive (fields Options.serialize) constructed) (hc : constructed.Constructed)
    (c : Configurator) :
    (readOptions archive (archive.save c.configure.brokerOptions) =
        some c.configure.brokerOptions ∧
      ∀ options, readOptions archive (archive.save c.configure.brokerOptions) = some options →
        Honours options c) ↔
    c.defaultTokenizerArgument = [] := by
  rw [readOptions_eq_iff archive hc]
  constructor
  · exact fun h ↦ h.1
  · intro harg
    refine ⟨harg, fun options hread ↦ ?_⟩
    rw [(readOptions_eq_iff archive hc _).mpr harg, Option.some.injEq] at hread
    rw [← hread]
    exact honours_built c

def blank : Options where
  protocol := .TEXT
  tokenizer := []
  solutions := []
  killer := ⟨0, 0, 0⟩
  judge := ⟨0, 0, 0⟩
  defaultResourceLimits := {}
  defaultTokenizerArgument := []

theorem blank_constructed : blank.Constructed := ⟨rfl, rfl, rfl, rfl⟩

def ptreeArchive : Archive (fields Options.serialize) blank :=
  .ptree Options.serialize blank (by decide)

/-- A game with one solution, whose tokens are lines if nothing else is said. -/
def lines : Configurator where
  broker := 13
  killer := 12
  judge := 11
  solutions := [10]
  defaultTokenizerArgument := [10]

/-- The same with a second solution. -/
def twoSolutions : Configurator :=
  { lines with solutions := [10, 20] }

theorem configuration_arrives_iff_lines :
    (readOptions ptreeArchive (ptreeArchive.save lines.configure.brokerOptions) =
        some lines.configure.brokerOptions ∧
      ∀ options,
        readOptions ptreeArchive (ptreeArchive.save lines.configure.brokerOptions) =
            some options →
          Honours options lines) ↔
    lines.defaultTokenizerArgument = [] :=
  configuration_arrives_iff ptreeArchive blank_constructed lines

/-- The argument is lost on the way, and `BEGIN 0` aborts where it would return with it. -/
theorem default_argument_lost :
    ∃ options, readOptions ptreeArchive (ptreeArchive.save lines.configure.brokerOptions) =
        some options ∧
      options ≠ lines.configure.brokerOptions ∧
      ((run (.begin₁ 0)).run (ready options : BrokerImpl SplitChar.library) [{}]).outcome =
        .raised (.abort "size == 1") ∧
      ((run (.begin₃ 0 [10] {})).run (ready options : BrokerImpl SplitChar.library) [{}]).outcome =
        .returned none := by
  refine ⟨_, readOptions_save ptreeArchive blank_constructed _, ?_, ?_, ?_⟩
  · intro h
    exact absurd (congrArg Options.defaultTokenizerArgument h) (by decide)
  · rfl
  · rfl

end FlowctlGame.BrokerImpl
