import ScriptLang.Grammar.Function

/-! Class definitions. -/
namespace ScriptLang.Parser

abbrev Modifiers := MemberFlags × Bool

def setVisibility (visibility : Visibility) : Modifiers → Parser (Turn Modifiers MemberFlags)
  | (flags, visibilitySet) => do
    if visibilitySet then fault .secondVisibility (← here)
    discard advance
    return .next ({ flags with visibility }, true)

def nextModifier : Modifiers → Parser (Turn Modifiers MemberFlags)
  | (flags, visibilitySet) => do
    match ← kind with
    | .keyword .publicWord => setVisibility .everyone (flags, visibilitySet)
    | .keyword .protectedWord => setVisibility .inheritors (flags, visibilitySet)
    | .keyword .privateWord => setVisibility .self (flags, visibilitySet)
    | .keyword .staticWord =>
      if flags.isStatic then fault (.duplicateModifier .staticWord) (← here)
      discard advance
      return .next ({ flags with isStatic := true }, visibilitySet)
    | .keyword .overrideWord =>
      if flags.isOverride then fault (.duplicateModifier .overrideWord) (← here)
      discard advance
      return .next ({ flags with isOverride := true }, visibilitySet)
    | _ => return .done flags

def modifiers : Parser MemberFlags := loop nextModifier ({}, false)

inductive MemberKind where
  | property | method | getter | setter

def memberKind? : TokenKind Token → Option MemberKind
  | .keyword .propertyWord => some .property
  | .keyword .methodWord => some .method
  | .keyword .getterWord => some .getter
  | .keyword .setterWord => some .setter
  | _ => none

/-- Whether a member of this kind and name is there already. Properties and methods share their
names. -/
def declares (definition : ClassDef Node) (name : String) : MemberKind → Bool
  | .property | .method =>
    definition.properties.any (·.name = name) || definition.methods.any (·.name = name)
  | .getter => definition.getters.any (·.name = name)
  | .setter => definition.setters.any (·.name = name)

def property (g : Grammar) (start : Span) (flags : MemberFlags) (name : String) :
    Parser (PropertyDef Node) := do
  let value ← if ← eat .equal then some <$> g.expression else pure none
  return ⟨name, value, flags, start.cover (← previous)⟩

/-- A method. The body of the constructor is the one place where constructors are chained. -/
def method (g : Grammar) (start : Span) (flags : MemberFlags) (name : String) :
    Parser (MethodDef Node) := do
  let params ← params g
  let function ← inConstructor (name = constructorName) (functionTail g (some name) params start)
  return ⟨name, function, flags, start.cover (← previous)⟩

def getter (g : Grammar) (start : Span) (flags : MemberFlags) (name : String) :
    Parser (MethodDef Node) := do
  if flags.isStatic then fault .staticGetter start
  if ← atSymbol .leftParen then
    if let first :: _ := ← params g then fault .getterParameter first.span
  let function ← functionTail g (some name) [] start
  return ⟨name, function, flags, start.cover (← previous)⟩

def setter (g : Grammar) (start nameSpan : Span) (flags : MemberFlags) (name : String) :
    Parser (MethodDef Node) := do
  if flags.isStatic then fault .staticSetter start
  let params ← params g
  match params with
  | [only] => if only.isRest then fault .setterParameters nameSpan
  | _ => fault .setterParameters nameSpan
  let function ← functionTail g (some name) params start
  return ⟨name, function, flags, start.cover (← previous)⟩

def member (g : Grammar) (definition : ClassDef Node) : Parser (ClassDef Node) := do
  let start ← here
  let flags ← modifiers
  match memberKind? (← kind) with
  | none => unexpected "'property', 'method', 'getter' or 'setter'"
  | some kind =>
    discard advance
    let (name, nameSpan) ← expectIdentifier "a member name"
    if declares definition name kind then
      fault (.duplicateMember name definition.name) nameSpan
    match kind with
    | .property =>
      return { definition with
        properties := definition.properties ++ [← property g start flags name] }
    | .method =>
      return { definition with methods := definition.methods ++ [← method g start flags name] }
    | .getter =>
      return { definition with getters := definition.getters ++ [← getter g start flags name] }
    | .setter =>
      return { definition with
        setters := definition.setters ++ [← setter g start nameSpan flags name] }

abbrev ClassBody := ClassDef Node × Bool

def nextMember (g : Grammar) : ClassBody → Parser (Turn ClassBody ClassBody)
  | (definition, sawPass) => do
    skipNewlines
    if ← atKeyword .endWord then return .done (definition, sawPass)
    let body ←
      if ← eatKeyword .passWord then pure (definition, true)
      else pure (← member g definition, sawPass)
    if !(← atNewline) && !(← atKeyword .endWord) then unexpected "a newline"
    return .next body

def isEmptyClass (definition : ClassDef Node) : Bool :=
  definition.properties.isEmpty && definition.methods.isEmpty && definition.getters.isEmpty &&
    definition.setters.isEmpty

/-- `class name extends parent:` and members up to `end`. -/
def classDefinition (g : Grammar) : Parser Node := do
  let start := (← advance).span
  let (name, _) ← expectIdentifier "a class name"
  let parent ←
    if ← eatKeyword .extendsWord then
      (fun name => some name.1) <$> expectIdentifier "a parent class name"
    else pure none
  discard (expect .colon "':'")
  if !(← atNewline) then fault .inlineClassBody (← here)
  let empty : ClassDef Node := { name, parent, span := start }
  let (definition, sawPass) ← loop (nextMember g) (empty, false)
  discard (expectKeyword .endWord)
  if isEmptyClass definition && !sawPass then fault .emptyClass start
  let span := start.cover (← previous)
  return ⟨.classDefinition { definition with span }, span⟩

end ScriptLang.Parser
