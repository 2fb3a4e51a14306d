import GDScript.Proofs.Script.Lines
import GDScript.Tree.Script

/-!
# How scripts are written

`Script.Written` relates a block to every text that spells it: with gaps of any width between the
tokens, with idle lines between the lines, with semicolons between simple items, and with every
block at any indentation that is greater than that of its header. As for expressions, it is defined
along the tree and does not mention how a text is read.

The levels are given by a predicate that holds of the indentation of every block; a comment at
another indentation is idle. A text is written with room for a number of rules that are active at a
time.
-/

namespace GDScript

open Text (IsGap IsName IsChain IsBreak IsIdle IsIdleLine spaces)

/-- The words that open a declaration. -/
def Declaration.words : List Text :=
  (["class_name", "extends", "signal", "enum", "class", "func", "const", "var"] : List Text) ++
    (FunctionModifier.all.map FunctionModifier.word ++ VarModifier.all.map VarModifier.word)

/-- The words that open a statement or a branch of one. -/
def Statement.words : List Text :=
  ["if", "elif", "else", "while", "for", "match", "return", "pass"]

/-- The words that name no value. -/
def Script.words : List Text := "not" :: (Declaration.words ++ Statement.words)

/-- The text spells the expression, outside of brackets or inside. -/
abbrev Expr.Written (room : Nat) (inBrackets : Bool) (level : Nat) (e : Expr) (s : Text) : Prop :=
  Phrase.Written Script.words room (.expr inBrackets level e) s

/-! ### Lists -/

namespace Text

variable {α : Type}

/-- Items with commas between them; a comma may follow the last one or not. -/
inductive Separated (P : α → Text → Prop) (mayEndInComma : Bool) : List α → Text → Prop where
  | last {x : α} {s g : Text} (h : P x s) (hg : IsGap true g) :
      Separated P mayEndInComma [x] (s ++ g)
  | lastComma {x : α} {s g g' : Text} (hcomma : mayEndInComma = true) (h : P x s)
      (hg : IsGap true g) (hg' : IsGap true g') :
      Separated P mayEndInComma [x] (s ++ (g ++ ("," ++ g')))
  | cons {x : α} {xs : List α} {s g g' t : Text} (h : P x s) (hg : IsGap true g)
      (hg' : IsGap true g') (hxs : Separated P mayEndInComma xs t) :
      Separated P mayEndInComma (x :: xs) (s ++ (g ++ ("," ++ g')) ++ t)

/-- Items in parentheses. -/
inductive Parenthesized (P : α → Text → Prop) : List α → Text → Prop where
  | nil {g : Text} (hg : IsGap true g) : Parenthesized P [] ("(" ++ (g ++ ")"))
  | items {xs : List α} {g t : Text} (hg : IsGap true g) (h : Separated P false xs t) :
      Parenthesized P xs ("(" ++ (g ++ (t ++ ")")))

/-- A word with a gap behind it, or nothing. -/
inductive Modified (word : α → Text) : Option α → Text → Prop where
  | none : Modified word none []
  | some {m : α} {g : Text} (hg : IsGap false g) (hne : g ≠ []) :
      Modified word (some m) (word m ++ g)

end Text

/-! ### Declarations and statements on one line -/

/-- How a type and a value are given. -/
inductive Typing.Written : (room : Nat) → Typing → Option Expr → Text → Prop where
  | missing {room : Nat} : Written room (.declared none) none []
  | hint {room : Nat} {g g' hint : Text} (hg : IsGap false g) (hg' : IsGap false g')
      (hhint : IsChain CodeUnit.dot hint) :
      Written room (.declared (some hint)) none (g ++ (":" ++ (g' ++ hint)))
  | value {room : Nat} {g g' s : Text} {e : Expr} (hg : IsGap false g) (hg' : IsGap false g')
      (he : e.Written room false 0 s) :
      Written (room + 1) (.declared none) (some e) (g ++ ("=" ++ (g' ++ s)))
  | hintValue {room : Nat} {g g' hint h h' s : Text} {e : Expr} (hg : IsGap false g)
      (hg' : IsGap false g') (hhint : IsChain CodeUnit.dot hint) (hh : IsGap false h)
      (hh' : IsGap false h') (he : e.Written room false 0 s) :
      Written (room + 1) (.declared (some hint)) (some e)
        (g ++ (":" ++ (g' ++ (hint ++ (h ++ ("=" ++ (h' ++ s)))))))
  -- the colon and the sign of assignment are one sign here, without a gap
  | inferred {room : Nat} {g g' s : Text} {e : Expr} (hg : IsGap false g) (hg' : IsGap false g')
      (he : e.Written room false 0 s) :
      Written (room + 1) .inferred (some e) (g ++ (":=" ++ (g' ++ s)))

/-- The functions that set and get a variable, from the word before them on. -/
inductive VarDecl.Accessors : (setter getter : Option Text) → Text → Prop where
  | setter {g s : Text} (hg : IsGap false g) (hne : g ≠ []) (hs : IsName s) :
      Accessors (some s) none ("setget" ++ (g ++ s))
  | getter {g h t : Text} (hg : IsGap false g) (hh : IsGap false h) (ht : IsName t) :
      Accessors none (some t) ("setget" ++ (g ++ ("," ++ (h ++ t))))
  | both {g s h h' t : Text} (hg : IsGap false g) (hne : g ≠ []) (hs : IsName s)
      (hh : IsGap false h) (hh' : IsGap false h') (ht : IsName t) :
      Accessors (some s) (some t) ("setget" ++ (g ++ (s ++ (h ++ ("," ++ (h' ++ t))))))

/-- A name of an enumeration. -/
inductive EnumVariant.Written : (room : Nat) → EnumVariant → Text → Prop where
  | name {room : Nat} {name : Text} (hname : IsName name) : Written (room + 1) ⟨name, none⟩ name
  | value {room : Nat} {name g g' s : Text} {e : Expr} (hname : IsName name) (hg : IsGap true g)
      (hg' : IsGap true g') (he : e.Written room true 0 s) :
      Written (room + 2) ⟨name, some e⟩ (name ++ (g ++ ("=" ++ (g' ++ s))))

/-- A parameter of a function; its default stands on the line of the sign before it. -/
inductive FunctionArg.Written : (room : Nat) → FunctionArg → Text → Prop where
  | name {room : Nat} {name : Text} (hname : IsName name) :
      Written (room + 1) ⟨name, none, none⟩ name
  | hint {room : Nat} {name g g' hint : Text} (hname : IsName name) (hg : IsGap true g)
      (hg' : IsGap true g') (hhint : IsChain CodeUnit.dot hint) :
      Written (room + 1) ⟨name, some hint, none⟩ (name ++ (g ++ (":" ++ (g' ++ hint))))
  | value {room : Nat} {name h h' s : Text} {e : Expr} (hname : IsName name) (hh : IsGap false h)
      (hh' : IsGap false h') (he : e.Written room true 0 s) :
      Written (room + 2) ⟨name, none, some e⟩ (name ++ (h ++ ("=" ++ (h' ++ s))))
  | hintValue {room : Nat} {name g g' hint h h' s : Text} {e : Expr} (hname : IsName name)
      (hg : IsGap true g) (hg' : IsGap true g') (hhint : IsChain CodeUnit.dot hint)
      (hh : IsGap false h) (hh' : IsGap false h') (he : e.Written room true 0 s) :
      Written (room + 2) ⟨name, some hint, some e⟩
        (name ++ (g ++ (":" ++ (g' ++ (hint ++ (h ++ ("=" ++ (h' ++ s))))))))

/-- A declaration without a block. -/
inductive Decl.Written : (room : Nat) → Decl → Text → Prop where
  | className {room : Nat} {g name : Text} (hg : IsGap false g) (hne : g ≠ [])
      (hname : IsName name) : Written room (.classNameDecl name) ("class_name" ++ (g ++ name))
  | extendsPath {room : Nat} {g : Text} {literal : StringLiteral} (hg : IsGap false g)
      (h : literal.IsValid) :
      Written room (.extendsDecl (.path literal.body)) ("extends" ++ (g ++ literal.write))
  | extendsName {room : Nat} {g name : Text} (hg : IsGap false g) (hne : g ≠ [])
      (hname : IsName name) : Written room (.extendsDecl (.name name)) ("extends" ++ (g ++ name))
  | signal {room : Nat} {g name : Text} (hg : IsGap false g) (hne : g ≠ []) (hname : IsName name) :
      Written room (.signalDecl name []) ("signal" ++ (g ++ name))
  | signalParams {room : Nat} {g name g' s : Text} {params : List Text} (hg : IsGap false g)
      (hne : g ≠ []) (hname : IsName name) (hg' : IsGap false g')
      (hparams : Text.Parenthesized (fun param s => IsName param ∧ s = param) params s) :
      Written room (.signalDecl name params) ("signal" ++ (g ++ (name ++ (g' ++ s))))
  | enum {room : Nat} {g g' s : Text} {variants : List EnumVariant} (hg : IsGap false g)
      (hg' : IsGap true g')
      (hvariants : Text.Separated (EnumVariant.Written room) true variants s) :
      Written room (.enumDecl none variants) ("enum" ++ (g ++ ("\x7b" ++ (g' ++ (s ++ "\x7d")))))
  | enumName {room : Nat} {g name g' g'' s : Text} {variants : List EnumVariant}
      (hg : IsGap false g) (hne : g ≠ []) (hname : IsName name) (hg' : IsGap false g')
      (hg'' : IsGap true g'')
      (hvariants : Text.Separated (EnumVariant.Written room) true variants s) :
      Written room (.enumDecl (some name) variants)
        ("enum" ++ (g ++ (name ++ (g' ++ ("\x7b" ++ (g'' ++ (s ++ "\x7d")))))))
  | const {room : Nat} {g name s : Text} {typing : Typing} {e : Expr} (hg : IsGap false g)
      (hne : g ≠ []) (hname : IsName name) (htyping : typing.Written room (some e) s) :
      Written room (.constDecl ⟨name, typing, e⟩) ("const" ++ (g ++ (name ++ s)))
  | var {room : Nat} {modifier : Option VarModifier} {m g name s : Text} {typing : Typing}
      {value : Option Expr} (hmodifier : Text.Modified VarModifier.word modifier m)
      (hg : IsGap false g) (hne : g ≠ []) (hname : IsName name)
      (htyping : typing.Written room value s) :
      Written room (.varDecl ⟨modifier, name, typing, value, none, none⟩)
        (m ++ ("var" ++ (g ++ (name ++ s))))
  | varSetget {room : Nat} {modifier : Option VarModifier} {m g name s g' t : Text}
      {typing : Typing} {value : Option Expr} {setter getter : Option Text}
      (hmodifier : Text.Modified VarModifier.word modifier m) (hg : IsGap false g) (hne : g ≠ [])
      (hname : IsName name) (htyping : typing.Written room value s) (hg' : IsGap false g')
      (hne' : g' ≠ []) (haccessors : VarDecl.Accessors setter getter t) :
      Written room (.varDecl ⟨modifier, name, typing, value, setter, getter⟩)
        (m ++ ("var" ++ (g ++ (name ++ (s ++ (g' ++ t))))))

/-- A statement without a block. -/
inductive Stmt.Written : (room : Nat) → Stmt → Text → Prop where
  | assign {room : Nat} {target value : Expr} {op : AssignOp} {s g g' t : Text}
      (htarget : target.Written room false 4 s) (hg : IsGap false g) (hg' : IsGap false g')
      (hvalue : value.Written room false 0 t) :
      Written (room + 1) (.assignStmt target op value) (s ++ (g ++ (op.sign ++ (g' ++ t))))
  | return {room : Nat} : Written room (.returnStmt none) "return"
  | returnValue {room : Nat} {g s : Text} {e : Expr} (hg : IsGap false g)
      (hword : (g ++ s).Avoids CodeUnit.isIdentifierChar) (he : e.Written room false 0 s) :
      Written (room + 1) (.returnStmt (some e)) ("return" ++ (g ++ s))
  | pass {room : Nat} : Written (room + 1) .passStmt "pass"

/-- What stands on one line, or on a part of it up to a semicolon. -/
inductive Line.Written : (room : Nat) → Line → Text → Prop where
  | decl {room : Nat} {d : Decl} {span : Span} {s : Text} (h : d.Written room s) :
      Written (room + 2) (.decl d span) s
  | stmt {room : Nat} {st : Stmt} {span : Span} {s : Text} (h : st.Written room s) :
      Written (room + 2) (.stmt st span) s
  | expr {room : Nat} {e : Expr} {span : Span} {s : Text} (h : e.Written room false 0 s) :
      Written (room + 2) (.expr e span) s

/-! ### Blocks -/

/-- A piece of a script; the number is the indentation of the block that it stands in. -/
inductive Piece where
  /-- What stands on a line, without its indentation, up to the line break. -/
  | items (w : Nat) (ls : List Line)
  /-- A line with its indentation. -/
  | row (w : Nat) (ls : List Line)
  /-- The lines of a block, with idle lines before each of them. -/
  | rows (w : Nat) (block : Block)
  /-- What a header governs, from behind its colon on. -/
  | body (w : Nat) (block : Block)
  /-- An expression, a colon and what they govern. -/
  | branch (w : Nat) (c : Condition)
  /-- Further branches, from behind the line before them on. -/
  | elifs (w : Nat) (cs : List Condition)
  /-- The branch without a condition, from behind the line before it on. -/
  | otherwise (w : Nat) (block : Option Block)
  /-- The cases of a match, at their own indentation. -/
  | cases (w : Nat) (cs : List Condition)
  /-- A declaration with a block. -/
  | decl (w : Nat) (d : Decl)
  /-- A statement with blocks. -/
  | stmt (w : Nat) (st : Stmt)

namespace Piece

/-- The text spells the piece; the indentation of every block in it is a level. -/
inductive Written (isLevel : Nat → Prop) : (room : Nat) → Piece → Text → Prop where
  | item {room w : Nat} {l : Line} {s t : Text} (h : l.Written room s)
      (ht : IsIdleLine (fun _ => True) t) : Written isLevel room (.items w [l]) (s ++ t)
  /-- A semicolon may follow the last item of a line. -/
  | itemSemicolon {room w : Nat} {l : Line} {s g t : Text} (h : l.Written room s)
      (hg : IsGap false g) (ht : IsIdleLine (fun _ => True) t) :
      Written isLevel room (.items w [l]) (s ++ (g ++ (";" ++ t)))
  | items {room w : Nat} {l : Line} {ls : List Line} {s g g' t : Text} (h : l.Written room s)
      (hg : IsGap false g) (hg' : IsGap false g') (hls : Written isLevel room (.items w ls) t) :
      Written isLevel room (.items w (l :: ls)) (s ++ (g ++ (";" ++ (g' ++ t))))
  | declItem {room w : Nat} {d : Decl} {span : Span} {s : Text}
      (h : Written isLevel room (.decl w d) s) :
      Written isLevel (room + 2) (.items w [.decl d span]) s
  | stmtItem {room w : Nat} {st : Stmt} {span : Span} {s : Text}
      (h : Written isLevel room (.stmt w st) s) :
      Written isLevel (room + 2) (.items w [.stmt st span]) s
  /-- A comment at the indentation of the block belongs to it. -/
  | comment {room w : Nat} {text : Text} {span : Span} {g pad pad' : Text} (hg : IsGap false g)
      (hw : g.indentation = w) (htext : text.IsCommentText)
      (hpad : ∀ u ∈ pad ++ pad', u.isBlank = true ∧ u.isLineEnd = false) :
      Written isLevel room (.row w [.comment text span])
        (g ++ CodeUnit.hash :: (pad ++ text ++ pad'))
  | code {room w : Nat} {ls : List Line} {s : Text} (h : Written isLevel room (.items w ls) s) :
      Written isLevel (room + 1) (.row w ls) (spaces w ++ s)
  | lastRow {room w : Nat} {ls : List Line} {f s : Text} (hf : IsIdle (fun v => ¬isLevel v) f)
      (h : Written isLevel room (.row w ls) s) : Written isLevel room (.rows w ls) (f ++ s)
  | rows {room w : Nat} {ls : List Line} {more : Block} {f s b t : Text}
      (hf : IsIdle (fun v => ¬isLevel v) f) (h : Written isLevel room (.row w ls) s)
      (hb : IsBreak b) (hmore : Written isLevel room (.rows w more) t) :
      Written isLevel room (.rows w (ls ++ more)) (f ++ s ++ (b ++ t))
  /-- A block that a header governs holds a line of code, and is indented more than the header. -/
  | body {room w w' : Nat} {block : Block} {t b s : Text} (hlevel : isLevel w') (hw : w < w')
      (ht : IsIdleLine (fun _ => True) t) (hb : IsBreak b)
      (h : Written isLevel room (.rows w' block) s) (hcode : ∃ l ∈ block, l.isComment = false) :
      Written isLevel (room + 2) (.body w block) (t ++ (b ++ s))
  | branch {room w : Nat} {e : Expr} {block : Block} {s g t : Text}
      (he : e.Written room false 0 s) (hg : IsGap false g)
      (h : Written isLevel (room + 1) (.body w block) t) :
      Written isLevel (room + 1) (.branch w (.mk e block)) (s ++ (g ++ (":" ++ t)))
  | noElif {room w : Nat} : Written isLevel room (.elifs w []) []
  | elif {room w : Nat} {c : Condition} {cs : List Condition} {b f g s t : Text} (hb : IsBreak b)
      (hf : IsIdle (fun v => ¬isLevel v) f) (hg : IsGap false g)
      (hword : (g ++ s).Avoids CodeUnit.isIdentifierChar)
      (h : Written isLevel room (.branch w c) s)
      (hcs : Written isLevel (room + 2) (.elifs w cs) t) :
      Written isLevel (room + 2) (.elifs w (c :: cs))
        (b ++ f ++ (spaces w ++ ("elif" ++ (g ++ s))) ++ t)
  | noElse {room w : Nat} : Written isLevel room (.otherwise w none) []
  | else {room w : Nat} {block : Block} {b f g s : Text} (hb : IsBreak b)
      (hf : IsIdle (fun v => ¬isLevel v) f) (hg : IsGap false g)
      (h : Written isLevel room (.body w block) s) :
      Written isLevel (room + 1) (.otherwise w (some block))
        (b ++ f ++ (spaces w ++ ("else" ++ (g ++ (":" ++ s)))))
  | lastCase {room w : Nat} {c : Condition} {f s : Text} (hf : IsIdle (fun v => ¬isLevel v) f)
      (h : Written isLevel room (.branch w c) s) :
      Written isLevel (room + 2) (.cases w [c]) (f ++ (spaces w ++ s))
  | cases {room w : Nat} {c : Condition} {cs : List Condition} {f s b t : Text}
      (hf : IsIdle (fun v => ¬isLevel v) f) (h : Written isLevel room (.branch w c) s)
      (hb : IsBreak b) (hcs : Written isLevel (room + 2) (.cases w cs) t) :
      Written isLevel (room + 2) (.cases w (c :: cs)) (f ++ (spaces w ++ s) ++ (b ++ t))
  | if {room w : Nat} {c : Condition} {cs : List Condition} {otherwise : Option Block}
      {g s t u : Text} (hg : IsGap false g) (hword : (g ++ s).Avoids CodeUnit.isIdentifierChar)
      (h : Written isLevel room (.branch w c) s)
      (hcs : Written isLevel (room + 1) (.elifs w cs) t)
      (hotherwise : Written isLevel (room + 1) (.otherwise w otherwise) u) :
      Written isLevel (room + 1) (.stmt w (.ifStmt c cs otherwise))
        ("if" ++ (g ++ (s ++ (t ++ u))))
  | while {room w : Nat} {c : Condition} {g s : Text} (hg : IsGap false g)
      (hword : (g ++ s).Avoids CodeUnit.isIdentifierChar)
      (h : Written isLevel room (.branch w c) s) :
      Written isLevel (room + 1) (.stmt w (.whileStmt c)) ("while" ++ (g ++ s))
  | for {room w : Nat} {c : Condition} {g s : Text} (hg : IsGap false g)
      (hword : (g ++ s).Avoids CodeUnit.isIdentifierChar)
      (h : Written isLevel room (.branch w c) s) :
      Written isLevel (room + 1) (.stmt w (.forStmt c)) ("for" ++ (g ++ s))
  /-- The cases stand at one indentation, which is greater than that of the match. -/
  | match {room w w' : Nat} {subject : Expr} {cs : List Condition} {g s g' t b u : Text}
      (hg : IsGap false g) (hword : (g ++ s).Avoids CodeUnit.isIdentifierChar)
      (hsubject : subject.Written room false 0 s) (hg' : IsGap false g')
      (ht : IsIdleLine (fun _ => True) t) (hb : IsBreak b) (hw : w < w')
      (hcs : Written isLevel (room + 1) (.cases w' cs) u) :
      Written isLevel (room + 1) (.stmt w (.matchStmt subject cs))
        ("match" ++ (g ++ (s ++ (g' ++ (":" ++ (t ++ (b ++ u)))))))
  | function {room w : Nat} {modifier : Option FunctionModifier} {arguments : List FunctionArg}
      {m g name g' s g'' t : Text} {block : Block}
      (hmodifier : Text.Modified FunctionModifier.word modifier m) (hg : IsGap false g)
      (hne : g ≠ []) (hname : IsName name) (hg' : IsGap false g')
      (harguments : Text.Parenthesized (FunctionArg.Written room) arguments s)
      (hg'' : IsGap false g'') (h : Written isLevel room (.body w block) t) :
      Written isLevel room (.decl w (.functionDecl ⟨modifier, name, arguments, none⟩ block))
        (m ++ ("func" ++ (g ++ (name ++ (g' ++ (s ++ (g'' ++ (":" ++ t))))))))
  | functionHint {room w : Nat} {modifier : Option FunctionModifier}
      {arguments : List FunctionArg} {m g name g' s g'' h hint h' t : Text} {block : Block}
      (hmodifier : Text.Modified FunctionModifier.word modifier m) (hg : IsGap false g)
      (hne : g ≠ []) (hname : IsName name) (hg' : IsGap false g')
      (harguments : Text.Parenthesized (FunctionArg.Written room) arguments s)
      (hg'' : IsGap false g'') (hh : IsGap false h) (hhint : IsChain CodeUnit.dot hint)
      (hh' : IsGap false h') (hbody : Written isLevel room (.body w block) t) :
      Written isLevel room (.decl w (.functionDecl ⟨modifier, name, arguments, some hint⟩ block))
        (m ++ ("func" ++ (g ++ (name ++ (g' ++ (s ++ (g'' ++
          ("->" ++ (h ++ (hint ++ (h' ++ (":" ++ t))))))))))))
  | class {room w : Nat} {g name g' t : Text} {block : Block} (hg : IsGap false g) (hne : g ≠ [])
      (hname : IsName name) (hg' : IsGap false g') (h : Written isLevel room (.body w block) t) :
      Written isLevel room (.decl w (.classDecl name none block))
        ("class" ++ (g ++ (name ++ (g' ++ (":" ++ t)))))
  | classExtends {room w : Nat} {g name g' h base h' t : Text} {block : Block}
      (hg : IsGap false g) (hne : g ≠ []) (hname : IsName name) (hg' : IsGap false g')
      (hne' : g' ≠ []) (hh : IsGap false h) (hne'' : h ≠ []) (hbase : IsChain CodeUnit.dot base)
      (hh' : IsGap false h') (hbody : Written isLevel room (.body w block) t) :
      Written isLevel room (.decl w (.classDecl name (some base) block))
        ("class" ++ (g ++ (name ++ (g' ++ ("extends" ++ (h ++ (base ++ (h' ++ (":" ++ t)))))))))

end Piece

/--
The text spells the block as a whole script. Its lines are not indented; behind them there may be
idle lines, of which the last one needs no line break.
-/
inductive Script.Written (isLevel : Nat → Prop) : (room : Nat) → Block → Text → Prop where
  | nil {room : Nat} {f l : Text} (hlevel : isLevel 0) (hf : IsIdle (fun v => ¬isLevel v) f)
      (hl : IsIdleLine (fun v => ¬isLevel v) l) : Written isLevel (room + 2) [] (f ++ l)
  | rows {room : Nat} {block : Block} {s rest : Text} (hlevel : isLevel 0)
      (h : Piece.Written isLevel room (.rows 0 block) s)
      (hrest : Text.Follows (fun v => ¬isLevel v) (fun _ _ => False) rest) :
      Written isLevel (room + 2) block (s ++ rest)

end GDScript
