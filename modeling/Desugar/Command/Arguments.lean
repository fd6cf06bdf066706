import Desugar.Options

/-! Arguments of the command line. They are read from left to right: flags that count
for every command may stand before or after the command's name, and an option's value
may stand in the same argument after `=` or in the next one. A value in an argument of
its own is looked at only when the next option or word is, or at the end. -/
namespace Desugar.Command

/-- Why arguments do not make a command. -/
inductive Usage where
  | help
  | version
  /-- There are no arguments at all. -/
  | noArguments
  | missingCommand
  | missingWord
  | unknownCommand
  | unknownArgument
  | missingValue
  | invalidValue
  | repeated
  | needlessValue
deriving DecidableEq, Repr

/-- Flags that every command has. -/
structure Globals where
  verbose : Bool
  config : Option Text
  noSourceMaps : Bool
  target : Option Target
deriving DecidableEq, Repr

end Command

inductive Command where
  | build (inputs : List Text) (outDir : Option Text)
  | check (inputs : List Text)
  | deps (file : Text) (json : Bool)
  | emit (file : Text) (json : Bool)
deriving DecidableEq, Repr

namespace Command

/-- Where arguments are read: before the command's name or after it. -/
inductive Level where
  | top
  | build
  | check
  | deps
  | emit
deriving DecidableEq, Repr

/-- Options with a value. -/
inductive Setting where
  | config
  | target
  | outDir
deriving DecidableEq, Repr

/-- Options without a value. -/
inductive Switch where
  | verbose
  | noSourceMaps
  | json
  | help
  | version
deriving DecidableEq, Repr

inductive Flag where
  | setting (s : Setting)
  | switch (s : Switch)
deriving DecidableEq, Repr

namespace Level

def ofName? (name : Text) : Option Level :=
  [("build".toList, Level.build), ("check".toList, .check), ("deps".toList, .deps),
    ("emit".toList, .emit)].lookup name

/-- The name of a command, or the word that asks for help on one. -/
def isName (word : Text) : Bool := (ofName? word).isSome || word == "help".toList

def flags : Level → List (Text × Flag)
  | .top => common ++ [("version".toList, .switch .version)]
  | .build => common ++ [("out-dir".toList, .setting .outDir)]
  | .check => common
  | .deps | .emit => common ++ [("json".toList, .switch .json)]
where
  common : List (Text × Flag) :=
    [("verbose".toList, .switch .verbose), ("config".toList, .setting .config),
     ("no-source-maps".toList, .switch .noSourceMaps), ("target".toList, .setting .target),
     ("help".toList, .switch .help)]

/-- Options known by a letter. -/
def letter? (level : Level) (c : Char) : Option Switch :=
  if c = 'v' then some .verbose
  else if c = 'h' then some .help
  else if c = 'V' && level = .top then some .version
  else none

end Level

/-- What has been read at one level. -/
structure Seen where
  globals : Globals
  json : Bool
  outDir : Option Text
  words : List Text
deriving DecidableEq, Repr

namespace Seen

def nothing : Seen := ⟨⟨false, none, false, none⟩, false, none, []⟩

def set (seen : Seen) (setting : Setting) (value : Text) : Except Usage Seen :=
  match setting with
  | .config =>
    if seen.globals.config.isSome then .error .repeated
    else .ok { seen with globals := { seen.globals with config := some value } }
  | .outDir => if seen.outDir.isSome then .error .repeated else .ok { seen with outDir := some value }
  | .target =>
    if seen.globals.target.isSome then .error .repeated
    else match Target.parse value with
      | .ok t => .ok { seen with globals := { seen.globals with target := some t } }
      | .error _ => .error .invalidValue

def turnOn (seen : Seen) (switch : Switch) : Except Usage Seen :=
  match switch with
  | .verbose => .ok { seen with globals := { seen.globals with verbose := true } }
  | .noSourceMaps =>
    if seen.globals.noSourceMaps then .error .repeated
    else .ok { seen with globals := { seen.globals with noSourceMaps := true } }
  | .json => if seen.json then .error .repeated else .ok { seen with json := true }
  | .help => .error .help
  | .version => .error .version

def addWord (seen : Seen) (word : Text) : Seen := { seen with words := seen.words ++ [word] }

end Seen

/-- An option whose value stands in an argument of its own. -/
inductive Waiting where
  | nothing
  | needs (setting : Setting)
  | holds (setting : Setting) (value : Text)
deriving DecidableEq, Repr

namespace Waiting

/-- Puts the value that was held back into place. -/
def settle (waiting : Waiting) (seen : Seen) : Except Usage Seen :=
  match waiting with
  | .nothing => .ok seen
  | .needs _ => .error .missingValue
  | .holds setting value => seen.set setting value

def needsValue : Waiting → Bool
  | .needs _ => true
  | _ => false

end Waiting

/-- A long option's name and the value attached to it. -/
def long? : Text → Option (Text × Option Text)
  | '-' :: '-' :: cs =>
    let name := cs.takeWhile (· != '=')
    some (name, if (cs.drop name.length).isEmpty then none else some (cs.drop (name.length + 1)))
  | _ => none

def letters? : Text → Option Text
  | '-' :: c :: cs => some (c :: cs)
  | _ => none

/-- Short options in one argument. -/
def readLetters (level : Level) : Seen → Waiting → Text → Except Usage Seen
  | seen, _, [] => .ok seen
  | seen, waiting, c :: cs =>
    match level.letter? c with
    | none => .error .unknownArgument
    | some switch => do
      let seen ← waiting.settle seen
      readLetters level (← seen.turnOn switch) .nothing cs

/-- A word that is neither an option nor a value of one. `literal` words stand after
`--`. -/
def readWord (level : Level) (literal : Bool) (seen : Seen) (waiting : Waiting) (word : Text) :
    Except Usage Seen :=
  match level with
  | .top => .error (if literal && Level.isName word then .unknownArgument else .unknownCommand)
  | .build | .check => do pure ((← waiting.settle seen).addWord word)
  | .deps | .emit =>
    if seen.words.isEmpty then do pure ((← waiting.settle seen).addWord word)
    else .error .unknownArgument

/-- What was read at one level, and the command's name with the arguments after it. -/
structure Reading where
  seen : Seen
  waiting : Waiting
  command : Option (Text × List Text)

/-- Reads arguments up to a command's name or the end. -/
def readArguments (level : Level) : (literal : Bool) → Seen → Waiting → List Text → Except Usage Reading
  | _, seen, waiting, [] => .ok ⟨seen, waiting, none⟩
  | true, seen, waiting, word :: words => do
    let seen ← readWord level true seen waiting word
    readArguments level true seen .nothing words
  | false, seen, waiting, word :: words =>
    if level = .top && !waiting.needsValue && Level.isName word then
      .ok ⟨seen, waiting, some (word, words)⟩
    else if word == ['-', '-'] then readArguments level true seen waiting words
    else match long? word with
      | some (name, attached) =>
        match level.flags.lookup name, attached with
        | none, _ => .error .unknownArgument
        | some (.switch _), some _ => .error .needlessValue
        | some (.switch switch), none => do
          let seen ← waiting.settle seen
          readArguments level false (← seen.turnOn switch) .nothing words
        | some (.setting setting), some value => do
          let seen ← waiting.settle seen
          readArguments level false (← seen.set setting value) .nothing words
        | some (.setting setting), none => do
          let seen ← waiting.settle seen
          readArguments level false seen (.needs setting) words
      | none =>
        match letters? word, waiting with
        | some letters, _ => do
          readArguments level false (← readLetters level seen waiting letters) .nothing words
        | none, .needs setting => readArguments level false seen (.holds setting word) words
        | none, _ => do
          let seen ← readWord level false seen waiting word
          readArguments level false seen .nothing words

/-- What the word `help` and the words after it ask for. -/
def helpUsage : List Text → Usage
  | [] => .help
  | [name] => if Level.isName name then .help else .unknownCommand
  | _ => .unknownCommand

/-- Flags after the command's name come before those in front of it. -/
def Globals.merge (outer inner : Globals) : Globals :=
  ⟨inner.verbose || outer.verbose, inner.config <|> outer.config,
    inner.noSourceMaps || outer.noSourceMaps, inner.target <|> outer.target⟩

def ofSeen (level : Level) (seen : Seen) : Except Usage Command :=
  match level, seen.words with
  | _, [] => .error .missingWord
  | .build, inputs => .ok (.build inputs seen.outDir)
  | .check, inputs => .ok (.check inputs)
  | .deps, file :: _ => .ok (.deps file seen.json)
  | .emit, file :: _ => .ok (.emit file seen.json)
  | .top, _ => .error .unknownCommand

def parse (arguments : List Text) : Except Usage (Globals × Command) := do
  let outer ← readArguments .top false .nothing .nothing arguments
  match outer.command with
  | none =>
    let seen ← outer.waiting.settle outer.seen
    .error (if seen = .nothing then .noArguments else .missingCommand)
  | some (name, rest) =>
    match Level.ofName? name with
    | none => .error (helpUsage rest)
    | some level =>
      let inner ← readArguments level false .nothing .nothing rest
      let innerSeen ← inner.waiting.settle inner.seen
      let command ← ofSeen level innerSeen
      let outerSeen ← outer.waiting.settle outer.seen
      pure (outerSeen.globals.merge innerSeen.globals, command)

end Command

end Desugar
