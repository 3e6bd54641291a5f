import ScriptLang.Settings.Token

/-! Settings documents: names with scalars, line by line or in braces. -/
namespace ScriptLang.Document

inductive Node where
  | scalar (anchor : Option String) (scalar : Scalar)
  | aliasOf (name : String)

def blank : Scalar := ⟨"", .plain, none⟩

structure Properties where
  anchor : Option String := none
  tag : Option String := none

def Properties.isEmpty (p : Properties) : Bool := p.anchor.isNone && p.tag.isNone

def properties? (handles : Handles) : List Token → Option (Properties × List Token)
  | .anchor name :: .tag tag :: rest => do return (⟨name, ← tag.resolve? handles⟩, rest)
  | .tag tag :: .anchor name :: rest => do return (⟨name, ← tag.resolve? handles⟩, rest)
  | .anchor name :: rest => some (⟨name, none⟩, rest)
  | .tag tag :: rest => do return (⟨none, ← tag.resolve? handles⟩, rest)
  | tokens => some ({}, tokens)

def node? (handles : Handles) : List Token → Option (Node × List Token)
  | .aliasOf name :: rest => some (.aliasOf name, rest)
  | tokens => do
    let (properties, rest) ← properties? handles tokens
    match rest with
    | .scalar scalar :: rest =>
      return (.scalar properties.anchor { scalar with tag := properties.tag }, rest)
    | .openBraces :: _ | .openBlock :: _ => none
    | _ =>
      if properties.isEmpty then none
      else return (.scalar properties.anchor { blank with tag := properties.tag }, rest)

def Token.follows : Token → Bool
  | key | value | comma | closeBlock | closeBraces => true
  | _ => false

def optionalNode? (handles : Handles) (tokens : List Token) : Option (Node × List Token) :=
  if tokens.head?.any Token.follows then some (.scalar none blank, tokens) else node? handles tokens

def value? (handles : Handles) : List Token → Option (Node × List Token)
  | .value :: rest => optionalNode? handles rest
  | tokens => some (.scalar none blank, tokens)

abbrev Entries := List (Node × Node)

def lines? (handles : Handles) : (turns : Nat) → List Token → Option (Entries × List Token)
  | turns + 1, .key :: rest => do
    let (key, rest) ← optionalNode? handles rest
    let (value, rest) ← value? handles rest
    let (entries, rest) ← lines? handles turns rest
    return ((key, value) :: entries, rest)
  | _, .closeBlock :: rest => some ([], rest)
  | _, _ => none

def braceEntry? (handles : Handles) : List Token → Option ((Node × Node) × List Token)
  | .key :: rest => do
    let (key, rest) ← optionalNode? handles rest
    let (value, rest) ← value? handles rest
    return ((key, value), rest)
  | tokens => do
    let (key, rest) ← node? handles tokens
    return ((key, .scalar none blank), rest)

def braces? (handles : Handles) : (turns : Nat) → List Token → Option (Entries × List Token)
  | _, .closeBraces :: rest => some ([], rest)
  | 0, _ => none
  | turns + 1, tokens => do
    let (entry, rest) ← braceEntry? handles tokens
    match rest with
    | .comma :: rest =>
      let (entries, rest) ← braces? handles turns rest
      return (entry :: entries, rest)
    | .closeBraces :: rest => return ([entry], rest)
    | _ => none

structure Mapping where
  anchor : Option String := none
  entries : Entries := []

def content? (handles : Handles) (tokens : List Token) : Option (Mapping × List Token) := do
  let (properties, rest) ← properties? handles tokens
  match rest with
  | .openBlock :: rest =>
    let (entries, rest) ← lines? handles rest.length rest
    return (⟨properties.anchor, entries⟩, rest)
  | .openBraces :: rest =>
    let (entries, rest) ← braces? handles rest.length rest
    return (⟨properties.anchor, entries⟩, rest)
  | [] | .documentEnd :: _ => return ({}, rest)
  | _ => none

/-- The handles that directives make. A version is given once, and is 1.1 or 1.2. -/
def handles? (hasVersion : Bool) (handles : Handles) : List Directive → Option Handles
  | [] => some handles
  | .version major minor :: rest =>
    if !hasVersion && major = 1 && (minor = 1 || minor = 2) then handles? true handles rest else none
  | .handle name stands :: rest =>
    if (handles.get? name).isSome then none else handles? hasVersion (handles.put name stands) rest

def directives : List Token → List Directive × List Token
  | .directive directive :: rest =>
    let (others, rest) := directives rest
    (directive :: others, rest)
  | tokens => ([], tokens)

def Token.isDocumentEnd : Token → Bool
  | documentEnd => true
  | _ => false

def mapping? (tokens : List Token) : Option Mapping := do
  let (mapping, rest) ← match directives tokens with
    | (given, .documentStart :: rest) => do content? (← handles? false [] given) rest
    | ([], .documentEnd :: _) => none
    | ([], rest) => content? [] rest
    | _ => none
  if rest.all Token.isDocumentEnd then some mapping else none

/-- The anchors of a document. They are numbered by how many names there are; a name that is given
again takes the next number, and so does the next new name. The last scalar of a number counts. -/
structure Anchors where
  numbers : Table Nat := []
  scalars : List (Nat × Option Scalar) := []

namespace Anchors

def add (a : Anchors) (anchor : Option String) (target : Option Scalar) : Anchors :=
  match anchor with
  | none => a
  | some name =>
    ⟨a.numbers.put name a.numbers.length, (a.numbers.length, target) :: a.scalars⟩

def scalar? (a : Anchors) (number : Nat) : Option Scalar := (a.scalars.lookup number).join

end Anchors

abbrev Reference := Scalar ⊕ Nat

def references? (a : Anchors) : List Node → Option (List Reference × Anchors)
  | [] => some ([], a)
  | .scalar anchor scalar :: rest => do
    let (others, a) ← references? (a.add anchor scalar) rest
    return (.inl scalar :: others, a)
  | .aliasOf name :: rest => do
    let number ← a.numbers.get? name
    let (others, a) ← references? a rest
    return (.inr number :: others, a)

def pairs : List Scalar → List (String × Scalar)
  | key :: value :: rest => (key.text, value) :: pairs rest
  | _ => []

def Mapping.resolve? (m : Mapping) : Option (List (String × Scalar)) := do
  let nodes := m.entries.flatMap fun (key, value) => [key, value]
  let (references, anchors) ← references? (Anchors.add {} m.anchor none) nodes
  return pairs (← references.mapM (·.elim some anchors.scalar?))

def entries? (source : String) : Option (List (String × Scalar)) := do
  (← mapping? (← tokens? source)).resolve?

end ScriptLang.Document
