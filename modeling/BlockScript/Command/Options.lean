import BlockScript.Text.Numeral
import BlockScript.Text.Quoted

/-!
# Command-line options

A command is described by a `Grammar`: its options, each with all its names, and at most one
plain argument.  Long options may be cut short as long as one name fits, a value may follow an
option in the same argument or in the next one, and everything after `--` is plain.  What an
argument looks like is settled for all arguments before the first option takes effect.
-/

namespace BlockScript.Command

variable {σ : Type}

/-- What an option does to the choices made so far. -/
inductive Effect (σ : Type) where
  /-- Shows the help and ends. -/
  | help
  /-- Sets something; the name that was used may matter. -/
  | flag (set : String → σ → σ)
  /-- Takes a value, which may be refused. -/
  | value (set : String → Except String (σ → σ))

structure Opt (σ : Type) where
  names : List String
  effect : Effect σ

def Opt.label (o : Opt σ) : String := "/".intercalate o.names

def Opt.takesValue (o : Opt σ) : Bool :=
  match o.effect with
  | .value _ => true
  | _ => false

/-- The one plain argument of a command. -/
structure Plain (σ : Type) where
  name : String
  set : String → σ → σ

structure Grammar (σ : Type) where
  program : String
  usage : String
  /-- What the help says after the usage. -/
  details : String
  options : List (Opt σ)
  plain : Option (Plain σ)

/-! ### What an argument looks like -/

/-- An option with what is written behind it in the same argument. -/
structure Mention (σ : Type) where
  option : Opt σ
  name : String
  /-- Whether an equals sign stands between the name and the rest. -/
  equals : Bool
  rest : Option (List Char)

inductive Shape (σ : Type) where
  | plain
  | dashes
  | unknown
  | option (m : Mention σ)

structure Argument (σ : Type) where
  text : String
  shape : Shape σ

namespace Grammar

variable (g : Grammar σ)

/-- All names of options, in order. -/
def named : List (String × Opt σ) := g.options.flatMap fun o => o.names.map fun name => (name, o)

def option? (name : String) : Option (Opt σ) := g.named.lookup name

/-- The options that a cut-short name may stand for. -/
def abbreviated (cs : List Char) : List (Mention σ) :=
  let stem := cs.takeWhile (· != '=')
  let after := cs.dropWhile (· != '=')
  match cs with
  | '-' :: '-' :: _ =>
    (g.named.filter fun (name, _) => stem.isPrefixOf name.toList).map fun (name, o) =>
      ⟨o, name, !after.isEmpty, if after.isEmpty then none else some (after.drop 1)⟩
  | _ =>
    g.named.filterMap fun (name, o) =>
      if name.toList == cs.take 2 then some ⟨o, name, false, some (cs.drop 2)⟩
      else if cs.isPrefixOf name.toList then some ⟨o, name, false, none⟩
      else none

end Grammar

def allDigits (cs : List Char) : Bool := cs.all fun c => (Text.digit? c).isSome

/-- Whether an argument that starts with a dash reads as a negative number. -/
def looksNegative : List Char → Bool
  | '-' :: cs =>
    let cs := if cs.getLast? == some '\n' then cs.dropLast else cs
    let whole := cs.takeWhile (· != '.')
    match cs.dropWhile (· != '.') with
    | [] => !whole.isEmpty && allDigits whole
    | _ :: fraction => allDigits whole && !fraction.isEmpty && allDigits fraction
  | _ => false

/-- What an argument ahead of `--` looks like; an ambiguous name is refused. -/
def Grammar.shapeOf (g : Grammar σ) (text : String) : Except String (Shape σ) :=
  let cs := text.toList
  if cs.head? != some '-' then .ok .plain
  else match g.option? text with
    | some o => .ok (.option ⟨o, text, false, none⟩)
    | none =>
      let stem := String.ofList (cs.takeWhile (· != '='))
      match cs.dropWhile (· != '='), g.option? stem with
      | _ :: rest, some o => .ok (.option ⟨o, stem, true, some rest⟩)
      | _, _ =>
        if cs.length == 1 then .ok .plain
        else match g.abbreviated cs with
          | [m] => .ok (.option m)
          | [] => .ok (if looksNegative cs || cs.contains ' ' then .plain else .unknown)
          | ms =>
            let names := ", ".intercalate (ms.map (·.name))
            .error ("ambiguous option: " ++ text ++ " could match " ++ names)

/-- What all arguments look like. -/
def Grammar.shapes (g : Grammar σ) : List String → Except String (List (Argument σ))
  | [] => .ok []
  | text :: rest =>
    if text == "--" then .ok (⟨text, .dashes⟩ :: rest.map fun t => ⟨t, .plain⟩)
    else do
      let shape ← g.shapeOf text
      return ⟨text, shape⟩ :: (← g.shapes rest)

/-! ### Taking effect -/

/-- An option as it is used. -/
structure Use (σ : Type) where
  option : Opt σ
  name : String
  value : String := ""

/-- How a mention ends. -/
inductive Ending (σ : Type) where
  | complete
  /-- The last option takes its value from the next argument. -/
  | wanting (option : Opt σ) (name : String)
  /-- Letters that name no option. -/
  | unknown (text : String)

def refusedRest (o : Opt σ) (rest : List Char) : String :=
  "argument " ++ o.label ++ ": ignored explicit argument " ++ Text.quote (String.ofList rest)

/-- The options used by letters behind a one-letter option `o` without a value. -/
def Grammar.letters (g : Grammar σ) (o : Opt σ) (name : String) (used : List (Use σ)) :
    List Char → Except String (List (Use σ) × Ending σ)
  | [] => .ok (used ++ [⟨o, name, ""⟩], .complete)
  | c :: rest =>
    if o.takesValue then .ok (used ++ [⟨o, name, String.ofList (c :: rest)⟩], .complete)
    else if c == '-' then .error (refusedRest o (c :: rest))
    else
      let used := used ++ [⟨o, name, ""⟩]
      let next := String.ofList ['-', c]
      match g.option? next with
      | none => .ok (used, .unknown (String.ofList ('-' :: c :: rest)))
      | some p => match rest with
        | [] => .ok (if p.takesValue then (used, .wanting p next)
            else (used ++ [⟨p, next, ""⟩], .complete))
        | '=' :: value =>
          if p.takesValue then .ok (used ++ [⟨p, next, String.ofList value⟩], .complete)
          else .error (refusedRest p value)
        | rest => g.letters p next used rest

/-- The options that a mention uses, in order, and how it ends. -/
def Grammar.uses (g : Grammar σ) (m : Mention σ) : Except String (List (Use σ) × Ending σ) :=
  match m.rest with
  | none => .ok (if m.option.takesValue then ([], .wanting m.option m.name)
      else ([⟨m.option, m.name, ""⟩], .complete))
  | some rest =>
    if m.option.takesValue then .ok ([⟨m.option, m.name, String.ofList rest⟩], .complete)
    else if m.equals || m.name.length != 2 || rest.isEmpty then .error (refusedRest m.option rest)
    else g.letters m.option m.name [] rest

/-- How far the arguments have been taken. -/
structure Progress (σ : Type) where
  choices : σ
  /-- Whether the plain argument is still to come. -/
  isOpen : Bool
  extras : List String := []

def Progress.extra (p : Progress σ) (text : String) : Progress σ :=
  { p with extras := p.extras ++ [text] }

def Grammar.takePlain (g : Grammar σ) (p : Progress σ) (text : String) : Progress σ :=
  match g.plain with
  | some plain => { p with choices := plain.set text p.choices, isOpen := false }
  | none => p.extra text

/-- Why reading the arguments ends early. -/
inductive Halt where
  | help
  | error (message : String)

def Use.apply (p : Progress σ) (u : Use σ) : Except Halt (Progress σ) :=
  match u.option.effect with
  | .help => .error .help
  | .flag set => .ok { p with choices := set u.name p.choices }
  | .value set => match set u.value with
    | .ok change => .ok { p with choices := change p.choices }
    | .error message => .error (.error ("argument " ++ u.option.label ++ ": " ++ message))

/-- Takes the arguments from left to right.  Only the first plain argument has a place; a `--`
next to it is dropped. -/
def Grammar.take (g : Grammar σ) : List (Argument σ) → Progress σ → Except Halt (Progress σ)
  | [], p => .ok p
  | ⟨text, .unknown⟩ :: rest, p => g.take rest (p.extra text)
  | ⟨text, .plain⟩ :: rest, p =>
    if p.isOpen then match rest with
      | ⟨_, .dashes⟩ :: more => g.take more (g.takePlain p text)
      | rest => g.take rest (g.takePlain p text)
    else g.take rest (p.extra text)
  | ⟨text, .dashes⟩ :: rest, p =>
    if p.isOpen then match rest with
      | ⟨next, .plain⟩ :: more => g.take more (g.takePlain p next)
      | rest => g.take rest (p.extra text)
    else g.take rest (p.extra text)
  | ⟨_, .option m⟩ :: rest, p => match g.uses m with
    | .error message => .error (.error message)
    | .ok (used, .complete) => do g.take rest (← used.foldlM Use.apply p)
    | .ok (used, .unknown text) => do g.take rest ((← used.foldlM Use.apply p).extra text)
    | .ok (used, .wanting o name) => match rest with
      | ⟨value, .plain⟩ :: more => do
        g.take more (← (used ++ [Use.mk o name value]).foldlM Use.apply p)
      | _ => .error (.error ("argument " ++ o.label ++ ": expected one argument"))

/-- What becomes of a command line: choices to act on, or an end with texts for the two
standard outputs. -/
inductive Parsed (σ : Type) where
  | ok (choices : σ)
  | exit (code : Nat) (stdout stderr : String)

def Grammar.fail (g : Grammar σ) (message : String) : Parsed σ :=
  .exit 2 "" (g.usage ++ g.program ++ ": error: " ++ message ++ "\n")

/-- Reads a command line. -/
def Grammar.parse (g : Grammar σ) (start : σ) (args : List String) : Parsed σ :=
  match g.shapes args with
  | .error message => g.fail message
  | .ok arguments => match g.take arguments ⟨start, g.plain.isSome, []⟩ with
    | .error .help => .exit 0 (g.usage ++ g.details) ""
    | .error (.error message) => g.fail message
    | .ok p => match g.plain, p.isOpen, p.extras with
      | some plain, true, _ => g.fail ("the following arguments are required: " ++ plain.name)
      | _, _, [] => .ok p.choices
      | _, _, extras => g.fail ("unrecognized arguments: " ++ " ".intercalate extras)

end BlockScript.Command
