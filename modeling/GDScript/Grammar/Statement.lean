import GDScript.Grammar.Expression

/-!
# The grammar of statements

A statement is tried as each of its kinds in turn (`Statement.stmt`). One that governs lines ends with a
block, which the rule of the block reads; the branches of a choice and the cases of a match go on
where the next line of code starts with their word or stands at their indentation. Whether it does is
looked up before anything is taken.
-/

namespace GDScript

open Grammar

namespace Statement

open Expression (expr postfixed)

/-- Any statement, in the order in which they are tried. -/
def stmt (indent : Nat) : Grammar Rule Stmt :=
  choice [call (.ifStmt indent), call (.whileStmt indent), call (.forStmt indent),
    call (.matchStmt indent), call .returnStmt, call .assignStmt, call .passStmt]

/-- An expression, a colon and the block that they govern. -/
def condition (indent : Nat) : Grammar Rule Condition := do
  skipSpaces
  let test ← expr
  skipSpaces
  expect ":"
  let body ← call (.indentedBlock indent)
  return .mk test body

/-! ### Branches -/

/-- The next line that holds code goes on with the given word, at the given indentation. -/
def seekContinuation (indent : Nat) (word : Text) : Reader Bool :=
  Reader.seekLine indent (Text.startsWord word)

/-- A further branch with a condition, if there is one. -/
def elifBranch (indent : Nat) : Grammar Rule (Option Condition) := do
  if ← read (seekContinuation indent "elif") then
    let branch ← call (.elifBranch indent)
    return some branch
  else return none

/-- A further branch with a condition, from its word on. -/
def elifBody (indent : Nat) : Grammar Rule Condition := do
  expectKeyword "elif"
  call (.condition indent)

/-- The branch without a condition, if there is one. -/
def elseBranch (indent : Nat) : Grammar Rule (Option Block) := do
  if ← read (seekContinuation indent "else") then
    let body ← call (.elseBranch indent)
    return some body
  else return none

/-- The branch without a condition, from its word on. -/
def elseBody (indent : Nat) : Grammar Rule Block := do
  expectKeyword "else"
  skipSpaces
  expect ":"
  call (.indentedBlock indent)

/-- Branches. -/
def ifStmt (indent : Nat) : Grammar Rule Stmt := do
  expectKeyword "if"
  let branch ← call (.condition indent)
  let elifs ← iterate (fun found => do
    match ← elifBranch indent with
    | some branch => return .again (branch :: found)
    | none => return .done found) []
  let otherwise ← elseBranch indent
  return .ifStmt branch elifs.reverse otherwise

/-! ### Loops -/

/-- A loop with a condition. -/
def whileStmt (indent : Nat) : Grammar Rule Stmt := do
  expectKeyword "while"
  let test ← call (.condition indent)
  return .whileStmt test

/-- A loop over values; the variable and the values are read as one expression with `in`. -/
def forStmt (indent : Nat) : Grammar Rule Stmt := do
  expectKeyword "for"
  let test ← call (.condition indent)
  return .forStmt test

/-! ### Cases -/

/--
The end of a header line and the indentation of the lines that it governs, which is greater than
that of the header. The cursor is left at the start of the line after the header.
-/
def blockOpening (header : Nat) : Grammar Rule Nat := do
  skipSpaces
  let _ ← read Reader.comment
  if ← read Reader.atLineEnd then
    let _ ← read Reader.lineBreak
    read (Reader.bodyIndent header)
  else expected "newline"

/-- The next line that holds code has exactly this indentation; the cursor is left behind it. -/
def seekLine (width : Nat) : Reader Bool := Reader.seekLine width fun rest => !rest.isEmpty

/-- An expression and cases for it, all at one indentation. -/
def matchStmt (indent : Nat) : Grammar Rule Stmt := do
  expectKeyword "match"
  skipSpaces
  let subject ← expr
  skipSpaces
  expect ":"
  let width ← blockOpening indent
  let cases ← iterate (fun found => do
    if ← read (seekLine width) then
      let branch ← call (.matchCase width)
      return .again (branch :: found)
    else return .done found) []
  if cases.isEmpty then expected "match case" else return .matchStmt subject cases.reverse

/-! ### Simple statements -/

/-- An assignment. -/
def assignStmt : Grammar Rule Stmt := do
  let target ← postfixed
  skipSpaces
  match ← read (Reader.operator Spelling.assign) with
  | none => expected "assignment operator"
  | some op =>
    skipSpaces
    let value ← expr
    return .assignStmt target op value

/-- Nothing follows on the line, or only a comment or another item. -/
def endsItem (t : Text) : Bool :=
  t.atLineEnd || List.isPrefixOf "#" t || List.isPrefixOf ";" t

/-- A return, perhaps with a value. -/
def returnStmt : Grammar Rule Stmt := do
  expectKeyword "return"
  skipSpaces
  if ← look endsItem then return .returnStmt none
  else
    let value ← expr
    return .returnStmt (some value)

/-- The statement that does nothing. -/
def passStmt : Grammar Rule Stmt := do
  expectKeyword "pass"
  return .passStmt

end Statement

end GDScript
