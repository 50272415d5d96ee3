/-!
# Arguments of a command line

Options have a long name behind two hyphens and perhaps a letter behind one. An option with a value
takes it from behind an equals sign, from behind its letter, or from the next argument. Letters of
options without values may be run together.
-/

namespace RailAtlas

/-- The form of an option. `hyphens` says that a value in an argument of its own may start with a
hyphen. -/
structure OptionForm where
  name : String
  letter : Option Char
  takesValue : Bool
  hyphens : Bool
deriving DecidableEq

/-- An option as given. The value is empty where it takes none. -/
structure GivenOption where
  name : String
  value : String
deriving DecidableEq

namespace OptionForm

def flag (name : String) (letter : Option Char) : OptionForm :=
  { name, letter, takesValue := false, hyphens := false }

def valued (name : String) (letter : Option Char) : OptionForm :=
  { name, letter, takesValue := true, hyphens := false }

def signed (name : String) : OptionForm :=
  { name, letter := none, takesValue := true, hyphens := true }

/-- Whether a whole argument may be the option's value. A lone hyphen always may. -/
def admits (form : OptionForm) (value : String) : Bool :=
  form.hyphens || value == "-" || value.toList.head? != some '-'

end OptionForm

/-- What one argument gives: complete options, and perhaps one that still wants its value. -/
structure ArgumentReading where
  given : List GivenOption
  pending : Option OptionForm

/-- An argument behind its two hyphens. -/
def longOption? (forms : List OptionForm) (cs : List Char) : Option ArgumentReading := do
  let name := String.ofList (cs.takeWhile (· != '='))
  let form ← forms.find? fun form => form.name == name
  match cs.dropWhile (· != '='), form.takesValue with
  | [], false => some { given := [{ name, value := "" }], pending := none }
  | [], true => some { given := [], pending := some form }
  | _ :: _, false => none
  | _ :: value, true =>
    some { given := [{ name, value := String.ofList value }], pending := none }

/-- An argument behind its only hyphen. -/
def letters? (forms : List OptionForm) : List Char → Option ArgumentReading
  | [] => some { given := [], pending := none }
  | c :: cs => do
    let form ← forms.find? fun form => form.letter == some c
    if form.takesValue then
      match cs with
      | [] => some { given := [], pending := some form }
      | '=' :: value =>
        some { given := [{ name := form.name, value := String.ofList value }], pending := none }
      | value =>
        some { given := [{ name := form.name, value := String.ofList value }], pending := none }
    else
      let r ← letters? forms cs
      return { r with given := { name := form.name, value := "" } :: r.given }

/-- The options at the front of some arguments, and the arguments from the first plain word on.
Behind two hyphens alone nothing may follow. -/
def readOptions? (forms : List OptionForm) :
    List String → Option (List GivenOption × List String)
  | [] => some ([], [])
  | arg :: rest =>
    let reading :=
      match arg.toList with
      | '-' :: '-' :: cs => longOption? forms cs
      | '-' :: cs => letters? forms cs
      | _ => none
    if arg = "--" then (if rest.isEmpty then some ([], []) else none)
    else if arg = "-" || arg.toList.head? != some '-' then some ([], arg :: rest)
    else
      match reading with
      | none => none
      | some { given, pending := none } =>
        (readOptions? forms rest).map fun (more, words) => (given ++ more, words)
      | some { given, pending := some form } =>
        match rest with
        | [] => none
        | value :: rest =>
          if form.admits value then
            (readOptions? forms rest).map fun (more, words) =>
              (given ++ { name := form.name, value } :: more, words)
          else none

/-- Options by name, none of them given twice. -/
def distinct? (given : List GivenOption) : Option (List GivenOption) :=
  if (given.map GivenOption.name).Nodup then some given else none

def valueOf? (given : List GivenOption) (name : String) : Option String :=
  (given.find? fun g => g.name == name).map GivenOption.value

end RailAtlas
