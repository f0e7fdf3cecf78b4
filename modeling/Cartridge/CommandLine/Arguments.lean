import Cartridge.CommandLine.Settings

/-!
# Arguments

The arguments are read from left to right, and the first fault decides.  An option takes its value
behind an equals sign or from the next argument, which must not begin with a dash.  A value from the
next argument is looked at once the option after it begins, or at the end: so an argument that is
not known at all comes before it.

* `Token`               what an argument is by its dashes;
* `Scan`                the settings so far, and an option whose value is not looked at yet;
* `Scan.readOption`     an argument that is an option or the value of one;
* `Scan.readOptions`    all arguments behind a subcommand;
* `Invocation.ofArguments`   all arguments.
-/

namespace Cartridge.CommandLine

/-! ## tokens -/

inductive Token where
  /-- two dashes alone: no options follow -/
  | escape
  | long (name : String) (value : Option String)
  /-- one-letter flags, at least one -/
  | short (flag : Char) (more : List Char)
  | word
  deriving DecidableEq, Repr

/-- a name, and the value behind the first equals sign -/
def Token.ofLong (text : List Char) : Token :=
  let name := String.ofList (text.takeWhile (· ≠ '='))
  match text.dropWhile (· ≠ '=') with
  | [] => .long name none
  | _ :: value => .long name (some (String.ofList value))

def Token.ofText (text : String) : Token :=
  match text.toList with
  | ['-', '-'] => .escape
  | '-' :: '-' :: rest => .ofLong rest
  | '-' :: flag :: more => .short flag more
  | _ => .word

/-! ## levels -/

/-- the arguments before the subcommand, or those behind it -/
inductive Level where
  | top
  | inside (sub : Subcommand)
  deriving DecidableEq, Repr

namespace Level

/-- the layout can be given on both levels -/
def parameters : Level → List Parameter
  | top => [.layout]
  | inside sub => .layout :: sub.parameters

def parameter? (level : Level) (name : String) : Option Parameter :=
  level.parameters.find? fun p => p.name == name

/-- the version is known at the top only -/
def flag? : Level → String → Option UsageFault
  | _, "help" => some .help
  | top, "version" => some .version
  | _, _ => none

def shortFlag? : Level → Char → Option UsageFault
  | _, 'h' => some .help
  | top, 'V' => some .version
  | _, _ => none

/-- an argument that is no option and no value -/
def stray (text : String) : Level → UsageFault
  | top => .unknownSubcommand text
  | inside _ => .unknownArgument text

end Level

/-! ## options -/

structure Scan where
  settings : Settings
  /-- an option, and its value if that has been read -/
  pending : Option (Parameter × Option String)
  deriving DecidableEq, Repr

namespace Scan

def start : Scan := ⟨.empty, none⟩

def awaitsValue (s : Scan) : Bool :=
  match s.pending with
  | some (_, none) => true
  | _ => false

/-- the settings with the pending option -/
def resolve (s : Scan) : Except UsageFault Settings :=
  match s.pending with
  | none => .ok s.settings
  | some (p, none) => .error (.noValue p)
  | some (p, some value) => s.settings.give p value

/-- a request for help or for the version comes behind the pending option -/
def refuse (s : Scan) (fault : UsageFault) : UsageFault :=
  match s.resolve with
  | .error earlier => earlier
  | .ok _ => fault

/-- the last of several one-letter flags decides -/
def readShort (s : Scan) (level : Level) (text : String) (flag : Char) (more : List Char) :
    UsageFault :=
  match level.shortFlag? flag with
  | none => .unknownArgument text
  | some first =>
    match more.mapM level.shortFlag? with
    | none => s.refuse (.unknownArgument text)
    | some others => s.refuse (others.getLastD first)

def readLong (s : Scan) (level : Level) (name : String) (value : Option String) :
    Except UsageFault Scan :=
  match level.parameter? name with
  | some p => do
    let settings ← s.resolve
    match value with
    | some value => return ⟨← settings.give p value, none⟩
    | none => return ⟨settings, some (p, none)⟩
  | none =>
    match level.flag? name, value with
    | some fault, none => .error (s.refuse fault)
    | some _, some _ => .error (.valueRefused name)
    | none, _ => .error (.unknownArgument name)

def readOption (s : Scan) (level : Level) (text : String) : Except UsageFault Scan :=
  match Token.ofText text, s.pending with
  | .long name value, _ => s.readLong level name value
  | .short flag more, _ => .error (s.readShort level text flag more)
  | .word, some (p, none) => .ok { s with pending := some (p, some text) }
  | _, _ => .error (level.stray text)

/-- nothing is expected behind an escape -/
def readOptions (s : Scan) (level : Level) : List String → Except UsageFault Settings
  | [] => s.resolve
  | text :: rest =>
    if Token.ofText text = .escape then
      match rest with
      | [] => s.resolve
      | text :: _ => .error (level.stray text)
    else
      match s.readOption level text with
      | .error fault => .error fault
      | .ok s => readOptions s level rest

end Scan

/-! ## invocations -/

/-- help on nothing, on a subcommand or on help itself -/
def helpOn : List String → UsageFault
  | [] => .help
  | name :: rest =>
    if name ≠ "help" ∧ (Subcommand.ofName? name).isNone then .unknownSubcommand name
    else match rest with
      | [] => .help
      | name :: _ => .unknownSubcommand name

/-- the arguments end before there is a subcommand -/
def withoutSubcommand (s : Scan) : UsageFault :=
  match s.resolve with
  | .error fault => fault
  | .ok settings => if settings = .empty then .noArguments else .noSubcommand

/-- no subcommand can follow an escape -/
def behindEscape (s : Scan) : List String → UsageFault
  | [] => withoutSubcommand s
  | text :: _ =>
    if text = "help" ∨ (Subcommand.ofName? text).isSome then .unknownArgument text
    else .unknownSubcommand text

/-- the arguments behind a subcommand come first; a layout among them outweighs one before it -/
def readSubcommand (s : Scan) (sub : Subcommand) (rest : List String) :
    Except UsageFault Invocation := do
  let inner ← Scan.start.readOptions (.inside sub) rest
  let request ← sub.request inner
  let outer ← s.resolve
  return ⟨inner.layout.or outer.layout, request⟩

def readTop (s : Scan) : List String → Except UsageFault Invocation
  | [] => .error (withoutSubcommand s)
  | text :: rest =>
    if !s.awaitsValue && text == "help" then .error (helpOn rest)
    else
      match if s.awaitsValue then none else Subcommand.ofName? text with
      | some sub => readSubcommand s sub rest
      | none =>
        if Token.ofText text = .escape then .error (behindEscape s rest)
        else
          match s.readOption .top text with
          | .error fault => .error fault
          | .ok s => readTop s rest

def Invocation.ofArguments (args : List String) : Except UsageFault Invocation :=
  readTop .start args

end Cartridge.CommandLine
