import CallScript.Bytes.Word

/-!
# `Command.Options` — the words of a command line

A command line is a verb and its options. An option is written in short or long form, with its value
behind it or attached to it; each option is given at most once, and no option has an empty value. A line
that does not keep these rules means nothing.
-/

namespace CallScript

/-- The files and the byte order of a command that needs an instruction set. -/
structure FileOptions where
  config : String
  input  : String
  output : Option String
  order  : ByteOrder
deriving DecidableEq, Repr

/-- What a command line asks for. -/
inductive Command
  | compile (files : FileOptions)
  | decompile (files : FileOptions) (permissive : Bool)
  | labels (input : String) (order : ByteOrder)
  | parse (input : String)
deriving DecidableEq, Repr

namespace Command

/-! ## Options -/

/-- An option of some verb. -/
inductive Opt
  | config
  | input
  | output
  | endian
  | permissive
deriving DecidableEq, Repr

namespace Opt

/-- The long form of an option, without its dashes. -/
def long : Opt → List Char
  | config     => "config".toList
  | input      => "input".toList
  | output     => "output".toList
  | endian     => "endian".toList
  | permissive => "permissive".toList

/-- The letter of an option's short form. -/
def short? : Opt → Option Char
  | config     => some 'c'
  | input      => some 'i'
  | output     => some 'o'
  | endian     => some 'e'
  | permissive => none

/-- Whether an option has a value. -/
def hasValue (o : Opt) : Bool := o ≠ permissive

end Opt

/-- Options as they were given, each with its value; that of a flag is empty. -/
abbrev Given := List (Opt × String)

/-- A text that can be the value of an option. -/
def value? (text : List Char) : Option String :=
  if text = [] then none else some (String.ofList text)

/-- A word that can be a value of its own: it must not look like an option. A single dash does not. -/
def wordValue? (word : String) : Option String :=
  match word.toList with
  | '-' :: _ :: _ => none
  | text => value? text

/-- Reads an option whose value, if it has one, is attached or is the next word. -/
def withValue (o : Opt) (attached : Option (List Char)) (words : List String) :
    Option ((Opt × String) × List String) :=
  match attached with
  | some text => if o.hasValue then (value? text).map fun v => ((o, v), words) else none
  | none =>
      if o.hasValue then
        match words with
        | [] => none
        | word :: words => (wordValue? word).map fun v => ((o, v), words)
      else some ((o, ""), words)

/-- The name and the attached value of a long form. -/
def splitLong (text : List Char) : List Char × Option (List Char) :=
  (text.takeWhile (· ≠ '='), (text.dropWhile (· ≠ '=')).tail?)

/-- The attached value of a short form; an equals sign in front of it is not part of it. -/
def shortValue : List Char → Option (List Char)
  | [] => none
  | '=' :: text => some text
  | text => some text

/-- Reads the option that a word begins, and its value. -/
def option? (allowed : List Opt) (word : String) (words : List String) :
    Option ((Opt × String) × List String) :=
  match word.toList with
  | '-' :: '-' :: text =>
      let (name, attached) := splitLong text
      (allowed.find? fun o => o.long = name).bind fun o => withValue o attached words
  | '-' :: letter :: text =>
      (allowed.find? fun o => o.short? = some letter).bind fun o =>
        withValue o (shortValue text) words
  | _ => none

theorem length_withValue {o : Opt} {attached : Option (List Char)} {words rest : List String}
    {g : Opt × String} (h : withValue o attached words = some (g, rest)) :
    rest.length ≤ words.length := by
  unfold withValue at h
  grind [Option.map_eq_some_iff]

theorem length_option? {allowed : List Opt} {word : String} {words rest : List String}
    {g : Opt × String} (h : option? allowed word words = some (g, rest)) :
    rest.length ≤ words.length := by
  unfold option? at h
  split at h
  · obtain ⟨_, _, h⟩ := Option.bind_eq_some_iff.mp h
    exact length_withValue h
  · obtain ⟨_, _, h⟩ := Option.bind_eq_some_iff.mp h
    exact length_withValue h
  · cases h

/-- The options of a command line. Two dashes may end it. -/
def options? (allowed : List Opt) (words : List String) : Option Given :=
  match words with
  | [] => some []
  | word :: words =>
      if word = "--" then (if words = [] then some [] else none)
      else
        match _h : option? allowed word words with
        | none => none
        | some (g, rest) => (options? allowed rest).map (g :: ·)
termination_by words.length
decreasing_by
  have := length_option? _h
  simp only [List.length_cons]
  omega

/-! ## Commands -/

/-- The options that were given, if none was given twice. -/
def once? (given : Given) : Option Given := if (given.map Prod.fst).Nodup then some given else none

/-- The byte order that the options ask for: that of the machine, if none. -/
def order? (given : Given) : Option ByteOrder :=
  match given.lookup .endian with
  | none => some .little
  | some "little" => some .little
  | some "big" => some .big
  | some _ => none

/-- The files that the options name. -/
def files? (given : Given) : Option FileOptions := do
  let config ← given.lookup .config
  let input ← given.lookup .input
  let order ← order? given
  return ⟨config, input, given.lookup .output, order⟩

/-- The options that are given to a verb, if they are allowed and none is given twice. -/
def given? (allowed : List Opt) (words : List String) : Option Given :=
  (options? allowed words).bind once?

/-- The command that a command line asks for. -/
def ofWords? : List String → Option Command
  | "compile" :: words => do
      let given ← given? [.config, .input, .output, .endian] words
      return .compile (← files? given)
  | "decompile" :: words => do
      let given ← given? [.config, .input, .output, .endian, .permissive] words
      return .decompile (← files? given) (given.lookup .permissive).isSome
  | "labels" :: words => do
      let given ← given? [.input, .endian] words
      return .labels (← given.lookup .input) (← order? given)
  | "parse" :: words => do
      let given ← given? [.input] words
      return .parse (← given.lookup .input)
  | _ => none

end Command
end CallScript
