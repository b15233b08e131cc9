import Mathlib

namespace FlowctlGame

abbrev Bytes := List UInt8

namespace Tokenizer

inductive Status where
  | FAIL
  | CONTINUE
  | ACCEPTED
deriving DecidableEq, Repr

/-- `accepted` counts bytes of the current call and is used with `ACCEPTED` only. -/
structure Result where
  status : Status
  accepted : ℕ
deriving DecidableEq, Repr

end Tokenizer

/-- The four symbols that `SharedTokenizerFactory` looks up in a tokenizer library.
`parse` answers the C return value, the final value of `*size` and the new state of
the instance; an error is a failed assertion of the library. -/
structure TokenizerLibrary where
  Instance : Type
  newTokenizer : Bytes → Except String Instance
  parse : Instance → Bytes → Except String (Int × ℕ × Instance)
  what : Instance → Option Bytes

/-- `SharedTokenizerFactory::Instance::operator()`. -/
def TokenizerLibrary.call (lib : TokenizerLibrary) (tokenizer : lib.Instance) (data : Bytes) :
    Except String (Tokenizer.Result × lib.Instance) :=
  match lib.parse tokenizer data with
  | .error msg => .error msg
  | .ok (result, size, tokenizer') =>
    if result < 0 then .ok (⟨.FAIL, size⟩, tokenizer')
    else if result = 0 then .ok (⟨.CONTINUE, size⟩, tokenizer')
    else .ok (⟨.ACCEPTED, size⟩, tokenizer')

/-- The instance of `src/tokenizers/split.c`. -/
structure Split where
  sep : Bytes
  over' : ℕ
deriving DecidableEq, Repr

namespace Split

/-- `strlen` stops at the first NUL, whatever `size` says. -/
def new (line : Bytes) : Except String Split :=
  if line.length = 0 then .error "size" else .ok ⟨line.takeWhile (· ≠ 0), 0⟩

/-- The loop of `tokenizer_parse` from index `i` on. -/
def parseFrom (sep : Bytes) (over' i : ℕ) : Bytes → Except String (Int × ℕ × Split)
  | [] => .ok (0, i, ⟨sep, over'⟩)
  | c :: data =>
    if over' < sep.length then
      let over' :=
        if some c = sep[over']? then over' + 1
        else if some c = sep[0]? then 1
        else 0
      if over' = sep.length then .ok (1, i + 1, ⟨sep, over'⟩)
      else parseFrom sep over' (i + 1) data
    else .error "tok->over < tok->sep_size"

def parse (tok : Split) (data : Bytes) : Except String (Int × ℕ × Split) :=
  if tok.sep.length = 0 then .error "tok->sep_size" else parseFrom tok.sep tok.over' 0 data

def library : TokenizerLibrary where
  Instance := Split
  newTokenizer := new
  parse := parse
  what _ := none

end Split

/-- The instance of `src/tokenizers/split_char.c`. -/
structure SplitChar where
  sep : UInt8
deriving DecidableEq, Repr

namespace SplitChar

def new (line : Bytes) : Except String SplitChar :=
  match line with
  | [c] => .ok ⟨c⟩
  | _ => .error "size == 1"

def parse (tok : SplitChar) (data : Bytes) : Except String (Int × ℕ × SplitChar) :=
  match data.findIdx? (· = tok.sep) with
  | some pos => .ok (1, pos + 1, tok)
  | none => .ok (0, data.length, tok)

def library : TokenizerLibrary where
  Instance := SplitChar
  newTokenizer := new
  parse := parse
  what _ := none

end SplitChar

end FlowctlGame
