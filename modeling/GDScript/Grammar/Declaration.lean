import GDScript.Grammar.Expression

/-!
# The grammar of declarations

Variables and constants, the header of a script, signals and enumerations, functions and inner
classes. The bodies of functions and classes are indented blocks.
-/

namespace GDScript

open Grammar

namespace Declaration

open Expression (expr name typeHint)

/-- Any declaration, in the order in which they are tried. -/
def decl (indent : Nat) : Grammar Rule Decl :=
  choice [call .classNameDecl, call .extendsDecl, call .signalDecl, call .enumDecl,
    call (.classDecl indent), call (.functionDecl indent), call .constDecl, call .varDecl]

/-- A single `=` is ahead. -/
def startsInitializer (t : Text) : Bool :=
  List.isPrefixOf "=" t && !List.isPrefixOf "==" t

/-- `=` and an expression, if they are there. -/
def initializer : Grammar Rule (Option Expr) :=
  optional do
    skipSpaces
    if ← look startsInitializer then
      expect "="
      skipSpaces
      let value ← expr
      return some value
    else return none

/-! ### Variables and constants -/

/-- `:` and a type name, if they are there. -/
def annotation : Grammar Rule (Option Text) := do
  if ← consume ":" then
    skipSpaces
    let hint ← typeHint
    return some hint
  else return none

/-- The names after the word `setget`, each of which may be missing. -/
def accessors : Grammar Rule (Option Text × Option Text) := do
  skipSpaces
  let setter ← (do
    if ← check "," then return none
    else
      let found ← name
      skipSpaces
      return some found)
  if ← consume "," then
    skipSpaces
    let getter ← name
    return (setter, some getter)
  else return (setter, none)

/-- `setget` with the names that follow it, if it is there. -/
def setget : Grammar Rule (Option (Option Text × Option Text)) :=
  optional do
    skipSpaces
    if ← read (Reader.keyword "setget") then
      let found ← accessors
      return some found
    else return none

/-- How the type of a variable is given, and its value. -/
def binding : Grammar Rule (Typing × Option Expr) := do
  skipSpaces
  if ← consume ":=" then
    skipSpaces
    let value ← expr
    return (.inferred, some value)
  else
    let hint ← annotation
    let value ← initializer
    return (.declared hint, value)

/-- A variable. -/
def varDecl : Grammar Rule Decl := do
  let modifier ← read (Reader.oneOf VarModifier.word VarModifier.all)
  skipSpaces
  expectKeyword "var"
  skipSpaces
  let found ← name
  let (typing, value) ← binding
  let names ← setget
  let (setter, getter) := names.getD (none, none)
  return .varDecl ⟨modifier, found, typing, value, setter, getter⟩

/-- A constant, which needs a value. -/
def constDecl : Grammar Rule Decl := do
  expectKeyword "const"
  skipSpaces
  let found ← name
  let (typing, value) ← binding
  match value with
  | some value => return .constDecl ⟨found, typing, value⟩
  | none => expected "'='"

/-! ### The header of a script -/

/-- What a script extends: the path of a script in quotes, or the name of a class. -/
def extendsDecl : Grammar Rule Decl := do
  expectKeyword "extends"
  skipSpaces
  match ← read Reader.string with
  | some literal => return .extendsDecl (.path literal.body)
  | none =>
    let found ← name
    return .extendsDecl (.name found)

/-- The name of a script's class. -/
def classNameDecl : Grammar Rule Decl := do
  expectKeyword "class_name"
  skipSpaces
  let found ← name
  return .classNameDecl found

/-! ### Signals and enumerations -/

/-- The parameters of a signal, if there is a parenthesis. -/
def signalParams : Grammar Rule (Option (List Text)) :=
  optional do
    skipSpaces
    if ← check "(" then
      let params ← parenthesized name
      return some params
    else return none

/-- A signal, perhaps with parameters. -/
def signalDecl : Grammar Rule Decl := do
  expectKeyword "signal"
  skipSpaces
  let found ← name
  let params ← signalParams
  return .signalDecl found (params.getD [])

/-- The variants of an enumeration, at least one; a comma may follow the last one. -/
def variants : Grammar Rule (List EnumVariant) := do
  expect "\x7b"
  bracketed do
    let first ← call .enumVariant
    let all ← iterate (fun found => do
      gap
      if ← consume "," then
        gap
        -- a comma may stand behind the last variant
        if ← check "\x7d" then return .done found
        else
          let variant ← call .enumVariant
          return .again (variant :: found)
      else return .done found) [first]
    gap
    expect "\x7d"
    return all.reverse

/-- An enumeration, perhaps with a name. -/
def enumDecl : Grammar Rule Decl := do
  expectKeyword "enum"
  skipSpaces
  let found ← (do
    if ← check "\x7b" then return none
    else
      let given ← name
      return some given)
  skipSpaces
  let all ← variants
  return .enumDecl found all

/-- A name of an enumeration, perhaps with its value. -/
def enumVariant : Grammar Rule EnumVariant := do
  gap
  let found ← name
  gap
  if ← look startsInitializer then
    expect "="
    gap
    let value ← expr
    return ⟨found, some value⟩
  else return ⟨found, none⟩

/-! ### Functions and classes -/

/-- A colon that does not belong to `:=` is ahead. -/
def startsAnnotation (t : Text) : Bool := List.isPrefixOf ":" t && !List.isPrefixOf ":=" t

/-- The type of a parameter, if it is given. -/
def argAnnotation : Grammar Rule (Option Text) :=
  optional do
    gap
    if ← look startsAnnotation then
      expect ":"
      gap
      let hint ← typeHint
      return some hint
    else return none

/-- A parameter, perhaps with its type and a default. -/
def functionArg : Grammar Rule FunctionArg := do
  let found ← name
  let hint ← argAnnotation
  let value ← initializer
  return ⟨found, hint, value⟩

/-- The parameters of a function. -/
def functionArgs : Grammar Rule (List FunctionArg) := parenthesized (call .functionArg)

/-- What follows the sign or the word, if it is there: a type name. -/
def typeAfter (reader : Reader Bool) : Grammar Rule (Option Text) := do
  if ← read reader then
    skipSpaces
    let hint ← typeHint
    skipSpaces
    return some hint
  else return none

/-- A function with its body. -/
def functionDecl (indent : Nat) : Grammar Rule Decl := do
  let modifier ← read (Reader.oneOf FunctionModifier.word FunctionModifier.all)
  skipSpaces
  expectKeyword "func"
  skipSpaces
  let found ← name
  skipSpaces
  let args ← functionArgs
  skipSpaces
  let returnType ← typeAfter (Reader.consume "->")
  expect ":"
  let body ← call (.indentedBlock indent)
  return .functionDecl ⟨modifier, found, args, returnType⟩ body

/-- An inner class with its body. -/
def classDecl (indent : Nat) : Grammar Rule Decl := do
  expectKeyword "class"
  skipSpaces
  let found ← name
  skipSpaces
  let base ← typeAfter (Reader.keyword "extends")
  expect ":"
  let body ← call (.indentedBlock indent)
  return .classDecl found base body

end Declaration

end GDScript
