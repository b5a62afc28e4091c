import PvsIndex.Text.DecimalDigit
import PvsIndex.Text.Quoted

/-!
# Arguments of the command

The command takes flags and one source.  Reading its arguments has two stages.

  * `classify` looks at each argument by itself.  A flag may be shortened to
    any front of its spelling that only it has.  What starts with a dash but
    is no flag is a plain word after all if it is a single dash, looks like a
    negative number or has a space in it; otherwise it is an unknown flag.
    After a separator `--` every argument is a word.
  * `consume` takes the classified arguments in order.  The first word is the
    source, and a separator beside it is swallowed; what is left over is
    unrecognised.  Asking for help ends the reading at once.

Ambiguity is a fault of the first stage, so it comes before all others.
-/

namespace PvsIndex

/-- What can be asked of the command. -/
inductive Flag where
  | help
  | test
  | json
  | reportDuplicates
deriving DecidableEq

namespace Flag

/-- How a flag is written. -/
def spellings : Flag → List String
  | help => ["-h", "--help"]
  | test => ["--test", "-test"]
  | json => ["--json"]
  | reportDuplicates => ["--report-duplicates"]

/-- Every spelling with its flag. -/
def table : List (String × Flag) :=
  [help, test, json, reportDuplicates].flatMap fun f => f.spellings.map fun s => (s, f)

/-- The flag with exactly this spelling. -/
def ofSpelling? (text : List Char) : Option Flag :=
  (table.find? fun entry => entry.1.toList = text).map Prod.snd

end Flag

/-- What can be wrong with the arguments: one that could be several flags, a flag
that was given a value, no source at all, or arguments that are left over. -/
inductive Misuse where
  | ambiguous (text : List Char) (spellings : List String)
  | ignoredValue (f : Flag) (value : List Char)
  | missingSource
  | unrecognized (texts : List (List Char))
deriving DecidableEq

/-- The wording of a misuse. -/
def Misuse.message : Misuse → String
  | ambiguous text spellings =>
    "ambiguous option: " ++ String.ofList text ++ " could match "
      ++ String.intercalate ", " spellings
  | ignoredValue f value =>
    "argument " ++ String.intercalate "/" f.spellings ++ ": ignored explicit argument "
      ++ quoted value
  | missingSource => "the following arguments are required: source"
  | unrecognized texts =>
    "unrecognized arguments: " ++ String.intercalate " " (texts.map String.ofList)

/-- An argument, looked at by itself: a flag with what is written into the same
argument after it, something that looks like a flag and is none, the separator
`--`, or any other word. -/
inductive Argument where
  | flag (f : Flag) (long : Bool) (value : Option (List Char))
  | unknown (text : List Char)
  | word (text : List Char)
  | separator
deriving DecidableEq

namespace Argument

/-- Cut a text at its first equals sign. -/
def cutAtEquals (text : List Char) : List Char × Option (List Char) :=
  (text.takeWhile (· ≠ '='), (text.dropWhile (· ≠ '=')).tail?)

/-- Is a spelling written with two dashes? -/
def isLong (text : List Char) : Bool :=
  ['-', '-'].isPrefixOf text

/-- A minus sign and digits, perhaps with a point before the last of them; one
line end may follow. -/
def looksNegative (text : List Char) : Bool :=
  match text with
  | '-' :: digits =>
    let body := if digits.getLast? = some '\n' then digits.dropLast else digits
    let whole := body.takeWhile isDecimalDigit
    match body.dropWhile isDecimalDigit with
    | [] => whole ≠ []
    | '.' :: fraction => fraction ≠ [] && fraction.all isDecimalDigit
    | _ => false
  | _ => false

/-- The flags that a text with two dashes can be short for. -/
def longCandidates (text : List Char) : List (String × Argument) :=
  let (front, value) := cutAtEquals text
  (Flag.table.filter fun entry => front.isPrefixOf entry.1.toList).map fun (s, f) =>
    (s, .flag f true value)

/-- The flags that a text with one dash can be short for, or be a run of
one-letter flags that starts with. -/
def shortCandidates (text : List Char) : List (String × Argument) :=
  Flag.table.filterMap fun (s, f) =>
    if s.toList = text.take 2 then some (s, .flag f false (some (text.drop 2)))
    else if text.isPrefixOf s.toList then some (s, .flag f false none)
    else none

/-- The flags that a text can be short for, with the spelling of each. -/
def candidates (text : List Char) : List (String × Argument) :=
  if isLong text then longCandidates text else shortCandidates text

/-- What an argument is that starts with a dash and is no flag. -/
def fallback (text : List Char) : Argument :=
  if looksNegative text || text.contains ' ' then .word text else .unknown text

/-- What an argument is that starts with a dash and goes on. -/
def classifyDashed (text : List Char) : Except Misuse Argument :=
  let (front, value) := cutAtEquals text
  match Flag.ofSpelling? text, Flag.ofSpelling? front with
  | some f, _ => .ok (.flag f (isLong text) none)
  | none, some f => .ok (.flag f (isLong front) value)
  | none, none =>
    match candidates text with
    | [] => .ok (fallback text)
    | [(_, argument)] => .ok argument
    | several => .error (.ambiguous text (several.map Prod.fst))

/-- What an argument is, apart from the separator. -/
def classify (text : List Char) : Except Misuse Argument :=
  match text with
  | '-' :: _ :: _ => classifyDashed text
  | _ => .ok (.word text)

/-- What each argument is; after the separator all are words. -/
def classifyAll : List (List Char) → Except Misuse (List Argument)
  | [] => .ok []
  | ['-', '-'] :: texts => .ok (.separator :: texts.map .word)
  | text :: texts =>
    match classify text with
    | .error misuse => .error misuse
    | .ok argument => (classifyAll texts).map (argument :: ·)

end Argument

/-- What the arguments ask for, as far as they have been read; `extras` are left
over. -/
structure Request where
  source : Option (List Char)
  flags : List Flag
  extras : List (List Char)
deriving DecidableEq

/-- Why reading the arguments ends early: help was asked for, or the arguments are
wrong. -/
inductive Stop where
  | help
  | misuse (m : Misuse)
deriving DecidableEq

namespace Request

/-- Nothing has been asked for. -/
def empty : Request := ⟨none, [], []⟩

/-- The flags in one argument with a single dash: a flag and what is written
after it.  The first letter there may be a flag of its own, and so on.

The whole argument is looked at before any flag in it counts, and an equals sign
only separates: `-hx` is wrong although it begins with `-h`, and `-h=h` asks for
help twice.  This is the older of two rules in use for such arguments; by the newer
one `-h` takes effect first, and an equals sign is wrong. -/
def valueFlags (f : Flag) : List Char → Except Misuse (List Flag)
  | [] => .error (.ignoredValue f [])
  | c :: cs =>
    match Flag.ofSpelling? ['-', c] with
    | none => .error (.ignoredValue f (c :: cs))
    | some g => if cs = [] then .ok [f, g] else (valueFlags g cs).map (f :: ·)

/-- The flags in one argument; none takes a value. -/
def argumentFlags (f : Flag) (long : Bool) : Option (List Char) → Except Misuse (List Flag)
  | none => .ok [f]
  | some value => if long then .error (.ignoredValue f value) else valueFlags f value

/-- Take flags; help ends the reading. -/
def takeFlags (r : Request) (fs : List Flag) : Except Stop Request :=
  if Flag.help ∈ fs then .error .help else .ok { r with flags := r.flags ++ fs }

/-- Take arguments in order. -/
def consume (r : Request) : List Argument → Except Stop Request
  | [] => .ok r
  | .flag f long value :: rest =>
    match argumentFlags f long value with
    | .error m => .error (.misuse m)
    | .ok fs =>
      match r.takeFlags fs with
      | .error stop => .error stop
      | .ok r' => r'.consume rest
  | .unknown text :: rest => { r with extras := r.extras ++ [text] : Request }.consume rest
  | .separator :: rest =>
    match r.source with
    | none => r.consume rest
    | some _ => { r with extras := r.extras ++ [['-', '-']] : Request }.consume rest
  | .word text :: .separator :: rest =>
    match r.source with
    | none => { r with source := some text : Request }.consume rest
    | some _ => { r with extras := r.extras ++ [text, ['-', '-']] : Request }.consume rest
  | .word text :: rest =>
    match r.source with
    | none => { r with source := some text : Request }.consume rest
    | some _ => { r with extras := r.extras ++ [text] : Request }.consume rest

/-- Check that there is a source and nothing is left over. -/
def complete (r : Request) : Except Stop (List Char × List Flag) :=
  match r.source, r.extras with
  | none, _ => .error (.misuse .missingSource)
  | some source, [] => .ok (source, r.flags)
  | some _, extras => .error (.misuse (.unrecognized extras))

/-- The source and the flags that the arguments ask for. -/
def ofArguments (texts : List (List Char)) : Except Stop (List Char × List Flag) :=
  match Argument.classifyAll texts with
  | .error m => .error (.misuse m)
  | .ok arguments => (empty.consume arguments).bind complete

end Request

end PvsIndex
