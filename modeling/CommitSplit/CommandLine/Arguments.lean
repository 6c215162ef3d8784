/-!
# Arguments of a command

Arguments are options and operands. An option has a long name and perhaps a letter. Letters may be
written together, and a value may follow its option in the same argument or in the next one; in the
next one it may not look like an option. Behind two dashes there are operands only.
-/

namespace CommitSplit.CommandLine

/-- An option that a command knows. -/
structure KnownOption where
  name : String
  letter : Option Char
  takesValue : Bool
  deriving DecidableEq, Inhabited

/-- An option as it was given. -/
structure GivenOption where
  name : String
  value : Option String
  deriving DecidableEq, Inhabited

/-- What was given to a command. -/
structure Arguments where
  options : List GivenOption
  operands : List String
  deriving DecidableEq, Inhabited

namespace Arguments

/-- The values that a repeatable option was given. -/
def values (a : Arguments) (name : String) : List String :=
  (a.options.filter fun g => g.name = name).filterMap GivenOption.value

/-- The value of an option. -/
def value? (a : Arguments) (name : String) : Option String :=
  (a.values name).head?

/-- Whether an option was given. -/
def has (a : Arguments) (name : String) : Bool :=
  a.options.any fun g => g.name = name

/-- Whether no option was given twice, those that are repeatable apart. -/
def isSingle (a : Arguments) (repeatable : List String) : Bool :=
  let names := (a.options.map GivenOption.name).filter fun name => name ∉ repeatable
  names.eraseDups.length = names.length

/-- The arguments with a further option in front. -/
def withOption (g : GivenOption) (a : Arguments) : Arguments :=
  { a with options := g :: a.options }

end Arguments

/-- Whether an argument is an option or two dashes. A single dash is an operand. -/
def looksLikeOption (argument : String) : Bool :=
  match argument.toList with
  | '-' :: _ :: _ => true
  | _ => false

/-- A name and the value behind an equals sign, if there is one. -/
def splitValue (cs : List Char) : List Char × Option (List Char) :=
  match cs.dropWhile (· ≠ '=') with
  | _ :: value => (cs.takeWhile (· ≠ '='), some value)
  | [] => (cs, none)

/-- Options in one argument: those that are complete, and the one whose value is still to come. -/
structure Reading where
  complete : List GivenOption
  pending : Option String
  deriving DecidableEq

/-- Reads a long option without its dashes. -/
def readLong (known : List KnownOption) (cs : List Char) : Option Reading := do
  let (name, value) := splitValue cs
  let name := String.ofList name
  let option ← known.find? fun o => o.name = name
  match option.takesValue, value with
  | true, some value => return ⟨[⟨name, some (String.ofList value)⟩], none⟩
  | true, none => return ⟨[], some name⟩
  | false, none => return ⟨[⟨name, none⟩], none⟩
  | false, some _ => none

/-- Reads letters that are written together, without their dash. The first one that takes a value
has the others as its value. -/
def readLetters (known : List KnownOption) : List Char → Option Reading
  | [] => some ⟨[], none⟩
  | c :: cs => do
    let option ← known.find? fun o => o.letter = some c
    if option.takesValue then
      match cs with
      | [] => return ⟨[], some option.name⟩
      | '=' :: value => return ⟨[⟨option.name, some (String.ofList value)⟩], none⟩
      | value => return ⟨[⟨option.name, some (String.ofList value)⟩], none⟩
    else
      let reading ← readLetters known cs
      return { reading with complete := ⟨option.name, none⟩ :: reading.complete }

/-- Reads the options of an argument that looks like one. -/
def readOption (known : List KnownOption) (argument : String) : Option Reading :=
  match argument.toList with
  | '-' :: '-' :: name => readLong known name
  | '-' :: letters => readLetters known letters
  | _ => none

/-- Reads arguments. With `leading` set only options in front of the first operand are read, and the
operands are all arguments from that one on. -/
def readArguments (known : List KnownOption) (leading : Bool) : List String → Option Arguments
  | [] => some ⟨[], []⟩
  | argument :: rest =>
    if argument = "--" then if leading then none else some ⟨[], rest⟩
    else if looksLikeOption argument then do
      let reading ← readOption known argument
      match reading.pending, rest with
      | none, rest =>
        let others ← readArguments known leading rest
        return reading.complete.foldr Arguments.withOption others
      | some name, value :: rest =>
        if looksLikeOption value then none
        else
          let others ← readArguments known leading rest
          let valued : GivenOption := ⟨name, some value⟩
          return (reading.complete ++ [valued]).foldr Arguments.withOption others
      | some _, [] => none
    else if leading then some ⟨[], argument :: rest⟩
    else do
      let others ← readArguments known leading rest
      return { others with operands := argument :: others.operands }

end CommitSplit.CommandLine
