import GDScript.Proofs.Script.Bare

/-!
# Trees with other texts and places

Of a tree, what stands between quotes and the places of the lines are copied from the text that it
was read from. `Line.map f p` changes them, by `f` and by `p`, and keeps everything else; the tree
without places is the special case `Line.bare_eq_map`. `Line.quotations` lists what stands between
quotes, and only there does it matter what `f` does (`Block.map_congr`).
-/

namespace GDScript

/-! ### Expressions -/

mutual

/-- The expression with other texts between its quotes. -/
def Expr.mapText (f : Text → Text) : Expr → Expr
  | .string literal => .string ⟨f literal.body, literal.quote⟩
  | .nodePath path => .nodePath (f path)
  | .array elements => .array (Expr.mapTextList f elements)
  | .object pairs => .object (Expr.mapTextPairs f pairs)
  | .call name arguments => .call name (Expr.mapTextList f arguments)
  | .binary op left right => .binary op (left.mapText f) (right.mapText f)
  | .unary op operand => .unary op (operand.mapText f)
  | .null => .null
  | .boolean value => .boolean value
  | .int literal => .int literal
  | .float literal => .float literal
  | .ident name => .ident name

/-- The expressions with other texts between their quotes. -/
def Expr.mapTextList (f : Text → Text) : List Expr → List Expr
  | [] => []
  | e :: rest => e.mapText f :: Expr.mapTextList f rest

/-- The pairs with other texts between their quotes. -/
def Expr.mapTextPairs (f : Text → Text) : List (Expr × Expr) → List (Expr × Expr)
  | [] => []
  | (key, value) :: rest => (key.mapText f, value.mapText f) :: Expr.mapTextPairs f rest

end

mutual

/-- The bodies of the strings of an expression, and its node paths. -/
def Expr.quotations : Expr → List Text
  | .string literal => [literal.body]
  | .nodePath path => [path]
  | .array elements => Expr.quotationsList elements
  | .object pairs => Expr.quotationsPairs pairs
  | .call _ arguments => Expr.quotationsList arguments
  | .binary _ left right => left.quotations ++ right.quotations
  | .unary _ operand => operand.quotations
  | .null | .boolean _ | .int _ | .float _ | .ident _ => []

/-- The quotations of some expressions. -/
def Expr.quotationsList : List Expr → List Text
  | [] => []
  | e :: rest => e.quotations ++ Expr.quotationsList rest

/-- The quotations of some pairs. -/
def Expr.quotationsPairs : List (Expr × Expr) → List Text
  | [] => []
  | (key, value) :: rest => key.quotations ++ value.quotations ++ Expr.quotationsPairs rest

end

namespace Expr

variable {f g : Text → Text}

/-- Each of the expressions is changed on its own. -/
@[simp] theorem mapTextList_eq_map (es : List Expr) : mapTextList f es = es.map (mapText f) := by
  induction es with
  | nil => rfl
  | cons e es ih => rw [mapTextList, ih, List.map_cons]

/-- Keys and values are changed alike. -/
@[simp] theorem mapTextPairs_eq_map (ps : List (Expr × Expr)) :
    mapTextPairs f ps = ps.map (Prod.map (mapText f) (mapText f)) := by
  induction ps with
  | nil => rfl
  | cons p ps ih => rw [mapTextPairs, ih, List.map_cons]; rfl

mutual

/-- It only matters what is done to the quotations. -/
theorem mapText_congr : ∀ {e : Expr}, (∀ t ∈ e.quotations, f t = g t) → e.mapText f = e.mapText g
  | .string literal, h => by rw [mapText, mapText, h _ (List.mem_singleton_self _)]
  | .nodePath path, h => by rw [mapText, mapText, h _ (List.mem_singleton_self _)]
  | .array elements, h => by rw [mapText, mapText, mapTextList_congr h]
  | .object pairs, h => by rw [mapText, mapText, mapTextPairs_congr h]
  | .call name arguments, h => by rw [mapText, mapText, mapTextList_congr h]
  -- both operands have quotations of their own
  | .binary op left right, h => by
    rw [quotations, List.forall_mem_append] at h
    rw [mapText, mapText, mapText_congr h.1, mapText_congr h.2]
  | .unary op operand, h => by rw [mapText, mapText, mapText_congr (e := operand) h]
  | .null, _ | .boolean _, _ | .int _, _ | .float _, _ | .ident _, _ => rfl

theorem mapTextList_congr : ∀ {es : List Expr}, (∀ t ∈ quotationsList es, f t = g t) →
    mapTextList f es = mapTextList g es
  | [], _ => rfl
  | e :: rest, h => by
    rw [quotationsList, List.forall_mem_append] at h
    rw [mapTextList, mapTextList, mapText_congr h.1, mapTextList_congr h.2]

theorem mapTextPairs_congr : ∀ {ps : List (Expr × Expr)}, (∀ t ∈ quotationsPairs ps, f t = g t) →
    mapTextPairs f ps = mapTextPairs g ps
  | [], _ => rfl
  | (key, value) :: rest, h => by
    rw [quotationsPairs, List.forall_mem_append, List.forall_mem_append] at h
    rw [mapTextPairs, mapTextPairs, mapText_congr h.1.1, mapText_congr h.1.2, mapTextPairs_congr h.2]

end

mutual

/-- An expression whose texts stay is the same expression. -/
theorem mapText_id : ∀ e : Expr, e.mapText id = e
  | .array elements => by rw [mapText, mapTextList_id]
  | .object pairs => by rw [mapText, mapTextPairs_id]
  | .call name arguments => by rw [mapText, mapTextList_id]
  | .binary op left right => by rw [mapText, mapText_id, mapText_id]
  | .unary op operand => by rw [mapText, mapText_id]
  -- no expression stands inside of these
  | .string _ | .nodePath _ | .null | .boolean _ | .int _ | .float _ | .ident _ => rfl

theorem mapTextList_id : ∀ es : List Expr, mapTextList id es = es
  | [] => rfl
  | e :: rest => by rw [mapTextList, mapText_id, mapTextList_id]

theorem mapTextPairs_id : ∀ ps : List (Expr × Expr), mapTextPairs id ps = ps
  | [] => rfl
  | (key, value) :: rest => by rw [mapTextPairs, mapText_id, mapText_id, mapTextPairs_id]

end

end Expr

/-! ### Parts of lines -/

/-- The declaration with other texts between its quotes. -/
def VarDecl.mapText (f : Text → Text) (d : VarDecl) : VarDecl :=
  { d with value := d.value.map (Expr.mapText f) }

/-- The declaration with other texts between its quotes. -/
def ConstDecl.mapText (f : Text → Text) (d : ConstDecl) : ConstDecl :=
  { d with value := d.value.mapText f }

/-- The target with another path. -/
def ExtendsTarget.mapText (f : Text → Text) : ExtendsTarget → ExtendsTarget
  | .path body => .path (f body)
  | .name given => .name given

/-- The path, if the target is given by one. -/
def ExtendsTarget.quotations : ExtendsTarget → List Text
  | .path body => [body]
  | .name _ => []

/-- The variant with other texts between its quotes. -/
def EnumVariant.mapText (f : Text → Text) (v : EnumVariant) : EnumVariant :=
  { v with value := v.value.map (Expr.mapText f) }

/-- The parameter with other texts between its quotes. -/
def FunctionArg.mapText (f : Text → Text) (a : FunctionArg) : FunctionArg :=
  { a with defaultValue := a.defaultValue.map (Expr.mapText f) }

/-- The function with other texts between its quotes. -/
def FunctionHead.mapText (f : Text → Text) (head : FunctionHead) : FunctionHead :=
  { head with arguments := head.arguments.map (FunctionArg.mapText f) }

/-- The quotations of a value, if there is one. -/
def Expr.quotationsOption (value : Option Expr) : List Text := value.toList.flatMap Expr.quotations

/-- The places with others in their stead. -/
def Span.map (p : Location → Location) (span : Span) : Span := ⟨p span.start, p span.stop⟩

/-! ### Lines -/

mutual

/-- The declaration with other texts and places. -/
def Decl.map (f : Text → Text) (p : Location → Location) : Decl → Decl
  | .functionDecl head body => .functionDecl (head.mapText f) (Line.mapAll f p body)
  | .classDecl name base body => .classDecl name base (Line.mapAll f p body)
  | .varDecl d => .varDecl (d.mapText f)
  | .constDecl d => .constDecl (d.mapText f)
  | .extendsDecl target => .extendsDecl (target.mapText f)
  | .classNameDecl name => .classNameDecl name
  | .enumDecl name variants => .enumDecl name (variants.map (EnumVariant.mapText f))
  | .signalDecl name params => .signalDecl name params

/-- The statement with other texts and places. -/
def Stmt.map (f : Text → Text) (p : Location → Location) : Stmt → Stmt
  | .ifStmt branch elifs none => .ifStmt (branch.map f p) (Condition.mapAll f p elifs) none
  | .ifStmt branch elifs (some body) =>
    .ifStmt (branch.map f p) (Condition.mapAll f p elifs) (some (Line.mapAll f p body))
  | .whileStmt test => .whileStmt (test.map f p)
  | .forStmt test => .forStmt (test.map f p)
  | .matchStmt subject cases => .matchStmt (subject.mapText f) (Condition.mapAll f p cases)
  | .assignStmt target op value => .assignStmt (target.mapText f) op (value.mapText f)
  | .returnStmt value => .returnStmt (value.map (Expr.mapText f))
  | .passStmt => .passStmt

/-- The branch with other texts and places. -/
def Condition.map (f : Text → Text) (p : Location → Location) : Condition → Condition
  | .mk e body => .mk (e.mapText f) (Line.mapAll f p body)

/-- The branches with other texts and places. -/
def Condition.mapAll (f : Text → Text) (p : Location → Location) :
    List Condition → List Condition
  | [] => []
  | c :: cs => c.map f p :: Condition.mapAll f p cs

/-- The line with other texts and places. -/
def Line.map (f : Text → Text) (p : Location → Location) : Line → Line
  | .decl d span => .decl (d.map f p) (span.map p)
  | .stmt s span => .stmt (s.map f p) (span.map p)
  | .expr e span => .expr (e.mapText f) (span.map p)
  | .comment text span => .comment text (span.map p)

/-- The lines with other texts and places. -/
def Line.mapAll (f : Text → Text) (p : Location → Location) : List Line → List Line
  | [] => []
  | l :: ls => l.map f p :: Line.mapAll f p ls

end

/-- The block with other texts and places. -/
def Block.map (f : Text → Text) (p : Location → Location) (block : Block) : Block :=
  List.map (Line.map f p) block

mutual

/-- What stands between quotes in a declaration. -/
def Decl.quotations : Decl → List Text
  | .functionDecl head body =>
    head.arguments.flatMap (fun a => Expr.quotationsOption a.defaultValue)
      ++ Line.quotationsAll body
  | .classDecl _ _ body => Line.quotationsAll body
  | .varDecl d => Expr.quotationsOption d.value
  | .constDecl d => d.value.quotations
  | .extendsDecl target => target.quotations
  | .enumDecl _ variants => variants.flatMap fun v => Expr.quotationsOption v.value
  | .classNameDecl _ | .signalDecl _ _ => []

/-- What stands between quotes in a statement. -/
def Stmt.quotations : Stmt → List Text
  | .ifStmt branch elifs none => branch.quotations ++ Condition.quotationsAll elifs
  | .ifStmt branch elifs (some body) =>
    branch.quotations ++ Condition.quotationsAll elifs ++ Line.quotationsAll body
  | .whileStmt test | .forStmt test => test.quotations
  | .matchStmt subject cases => subject.quotations ++ Condition.quotationsAll cases
  | .assignStmt target _ value => target.quotations ++ value.quotations
  | .returnStmt value => Expr.quotationsOption value
  | .passStmt => []

/-- What stands between quotes in a branch. -/
def Condition.quotations : Condition → List Text
  | .mk e body => e.quotations ++ Line.quotationsAll body

/-- What stands between quotes in some branches. -/
def Condition.quotationsAll : List Condition → List Text
  | [] => []
  | c :: cs => c.quotations ++ Condition.quotationsAll cs

/-- What stands between quotes on a line. -/
def Line.quotations : Line → List Text
  | .decl d _ => d.quotations
  | .stmt s _ => s.quotations
  | .expr e _ => e.quotations
  | .comment _ _ => []

/-- What stands between quotes on some lines. -/
def Line.quotationsAll : List Line → List Text
  | [] => []
  | l :: ls => l.quotations ++ Line.quotationsAll ls

end

/-- What stands between quotes in a block: the bodies of strings, node paths and paths of scripts. -/
abbrev Block.quotations (block : Block) : List Text := Line.quotationsAll block

/-! ### The parts of a tree -/

section Parts

variable (f : Text → Text) (p : Location → Location)

/-- The lines of a body are changed one by one, as those of a block are. -/
theorem Line.mapAll_eq_map (block : Block) : Line.mapAll f p block = block.map f p := by
  induction block with
  | nil => rfl
  | cons l ls ih => rw [Line.mapAll, ih]; rfl

/-- The branches are changed one by one. -/
theorem Condition.mapAll_eq_map (cs : List Condition) :
    Condition.mapAll f p cs = cs.map (Condition.map f p) := by
  induction cs with
  | nil => rfl
  | cons c cs ih => rw [Condition.mapAll, ih]; rfl

@[simp] theorem Block.map_nil : Block.map f p [] = [] := rfl

@[simp] theorem Block.map_cons (l : Line) (ls : Block) :
    Block.map f p (l :: ls) = l.map f p :: Block.map f p ls := rfl

/-- Blocks that are put together are changed apart. -/
@[simp] theorem Block.map_append (ls more : Block) :
    Block.map f p (ls ++ more) = Block.map f p ls ++ Block.map f p more :=
  List.map_append

/-- It does not matter in which order the lines are gathered. -/
@[simp] theorem Block.map_reverse (ls : Block) :
    Block.map f p ls.reverse = (Block.map f p ls).reverse :=
  List.map_reverse

/-- A branch is changed in its test and in its body. -/
@[simp] theorem Condition.map_mk (e : Expr) (body : Block) :
    Condition.map f p (.mk e body) = .mk (e.mapText f) (body.map f p) := by
  rw [Condition.map, Line.mapAll_eq_map]

/-- A function is changed in its parameters and in its body. -/
@[simp] theorem Decl.map_functionDecl (head : FunctionHead) (body : Block) :
    Decl.map f p (.functionDecl head body) = .functionDecl (head.mapText f) (body.map f p) := by
  rw [Decl.map, Line.mapAll_eq_map]

@[simp] theorem Decl.map_classDecl (name : Text) (base : Option Text) (body : Block) :
    Decl.map f p (.classDecl name base body) = .classDecl name base (body.map f p) := by
  rw [Decl.map, Line.mapAll_eq_map]

/-- Of a choice, all branches are changed, and the last one if there is one. -/
@[simp] theorem Stmt.map_ifStmt (branch : Condition) (elifs : List Condition)
    (otherwise : Option Block) :
    Stmt.map f p (.ifStmt branch elifs otherwise)
      = .ifStmt (branch.map f p) (elifs.map (Condition.map f p)) (otherwise.map (Block.map f p)) := by
  -- the two ways in which a statement ends stand apart in the definition
  cases otherwise with
  | none => rw [Stmt.map, Condition.mapAll_eq_map]; rfl
  | some body => rw [Stmt.map, Condition.mapAll_eq_map, Line.mapAll_eq_map]; rfl

/-- Of a match, the subject and the cases are changed. -/
@[simp] theorem Stmt.map_matchStmt (subject : Expr) (cases : List Condition) :
    Stmt.map f p (.matchStmt subject cases)
      = .matchStmt (subject.mapText f) (cases.map (Condition.map f p)) := by
  rw [Stmt.map, Condition.mapAll_eq_map]

/-- A comment stays one, and nothing else becomes one. -/
@[simp] theorem Line.isComment_map (l : Line) : (l.map f p).isComment = l.isComment := by
  cases l <;> rfl

end Parts

/-! ### Trees that stay the same -/

/-- Only the quotations of a value may change. -/
theorem Expr.map_mapText_congr {f g : Text → Text} {value : Option Expr}
    (h : ∀ t ∈ Expr.quotationsOption value, f t = g t) :
    value.map (Expr.mapText f) = value.map (Expr.mapText g) := by
  cases value with
  | none => rfl
  | some e =>
    rw [Option.map_some, Option.map_some, mapText_congr fun t ht => h t (by simpa [quotationsOption])]

section Congr

variable {f g : Text → Text} {p : Location → Location}

mutual

/-- Of a declaration only the quotations may change, those of its body among them. -/
theorem Decl.map_congr : ∀ {d : Decl}, (∀ t ∈ d.quotations, f t = g t) → d.map f p = d.map g p
  | .functionDecl head body, h => by
    rw [Decl.quotations, List.forall_mem_append] at h
    -- the default values of the parameters stand before the body
    have harguments : head.arguments.map (FunctionArg.mapText f)
        = head.arguments.map (FunctionArg.mapText g) := by
      refine List.map_congr_left fun a ha => ?_
      rw [FunctionArg.mapText, FunctionArg.mapText, Expr.map_mapText_congr fun t ht =>
        h.1 t (List.mem_flatMap.mpr ⟨a, ha, ht⟩)]
    rw [Decl.map, Decl.map, Line.mapAll_congr h.2, FunctionHead.mapText, FunctionHead.mapText,
      harguments]
  | .classDecl name base body, h => by
    have hbody : ∀ t ∈ Line.quotationsAll body, f t = g t := h
    rw [Decl.map, Decl.map, Line.mapAll_congr hbody]
  | .varDecl d, h => by
    rw [Decl.map, Decl.map, VarDecl.mapText, VarDecl.mapText, Expr.map_mapText_congr h]
  | .constDecl d, h => by
    rw [Decl.map, Decl.map, ConstDecl.mapText, ConstDecl.mapText, Expr.mapText_congr (e := d.value) h]
  | .extendsDecl (.path body), h => by
    rw [Decl.map, Decl.map, ExtendsTarget.mapText, ExtendsTarget.mapText,
      h _ (List.mem_singleton_self _)]
  | .enumDecl name variants, h => by
    have hvariants : variants.map (EnumVariant.mapText f) = variants.map (EnumVariant.mapText g) := by
      refine List.map_congr_left fun v hv => ?_
      rw [EnumVariant.mapText, EnumVariant.mapText, Expr.map_mapText_congr fun t ht =>
        h t (List.mem_flatMap.mpr ⟨v, hv, ht⟩)]
    rw [Decl.map, Decl.map, hvariants]
  | .extendsDecl (.name _), _ | .classNameDecl _, _ | .signalDecl _ _, _ => rfl

/-- Of a statement only the quotations may change, in all its branches. -/
theorem Stmt.map_congr : ∀ {s : Stmt}, (∀ t ∈ s.quotations, f t = g t) → s.map f p = s.map g p
  | .ifStmt branch elifs none, h => by
    rw [Stmt.quotations, List.forall_mem_append] at h
    rw [Stmt.map, Stmt.map, Condition.map_congr h.1, Condition.mapAll_congr h.2]
  | .ifStmt branch elifs (some body), h => by
    rw [Stmt.quotations, List.forall_mem_append, List.forall_mem_append] at h
    rw [Stmt.map, Stmt.map, Condition.map_congr h.1.1, Condition.mapAll_congr h.1.2,
      Line.mapAll_congr h.2]
  -- a loop has the quotations of its one branch
  | .whileStmt test, h => by rw [Stmt.map, Stmt.map, Condition.map_congr (c := test) h]
  | .forStmt test, h => by rw [Stmt.map, Stmt.map, Condition.map_congr (c := test) h]
  | .matchStmt subject cases, h => by
    rw [Stmt.quotations, List.forall_mem_append] at h
    rw [Stmt.map, Stmt.map, Expr.mapText_congr h.1, Condition.mapAll_congr h.2]
  | .assignStmt target op value, h => by
    rw [Stmt.quotations, List.forall_mem_append] at h
    rw [Stmt.map, Stmt.map, Expr.mapText_congr h.1, Expr.mapText_congr h.2]
  | .returnStmt value, h => by rw [Stmt.map, Stmt.map, Expr.map_mapText_congr h]
  | .passStmt, _ => rfl

theorem Condition.map_congr : ∀ {c : Condition}, (∀ t ∈ c.quotations, f t = g t) →
    c.map f p = c.map g p
  | .mk e body, h => by
    rw [Condition.quotations, List.forall_mem_append] at h
    rw [Condition.map, Condition.map, Expr.mapText_congr h.1, Line.mapAll_congr h.2]

theorem Condition.mapAll_congr : ∀ {cs : List Condition},
    (∀ t ∈ Condition.quotationsAll cs, f t = g t) → Condition.mapAll f p cs = Condition.mapAll g p cs
  | [], _ => rfl
  | c :: cs, h => by
    rw [Condition.quotationsAll, List.forall_mem_append] at h
    rw [Condition.mapAll, Condition.mapAll, Condition.map_congr h.1, Condition.mapAll_congr h.2]

/-- It only matters what is done to the quotations. -/
theorem Line.map_congr : ∀ {l : Line}, (∀ t ∈ l.quotations, f t = g t) → l.map f p = l.map g p
  | .decl d span, h => by rw [Line.map, Line.map, Decl.map_congr (d := d) h]
  | .stmt s span, h => by rw [Line.map, Line.map, Stmt.map_congr (s := s) h]
  | .expr e span, h => by rw [Line.map, Line.map, Expr.mapText_congr (e := e) h]
  | .comment _ _, _ => rfl

theorem Line.mapAll_congr : ∀ {ls : List Line}, (∀ t ∈ Line.quotationsAll ls, f t = g t) →
    Line.mapAll f p ls = Line.mapAll g p ls
  | [], _ => rfl
  | l :: ls, h => by
    rw [Line.quotationsAll, List.forall_mem_append] at h
    rw [Line.mapAll, Line.mapAll, Line.map_congr h.1, Line.mapAll_congr h.2]

end

end Congr

/-- A value whose texts stay is the same value, if there is one. -/
theorem Expr.map_mapText_id (value : Option Expr) : value.map (Expr.mapText id) = value := by
  cases value <;> simp [mapText_id]

/-- So is the head of a function. -/
theorem FunctionHead.mapText_id (head : FunctionHead) : head.mapText id = head := by
  -- the function on parameters is the identity, not only its values
  have h : FunctionArg.mapText id = id := by
    funext a
    rw [FunctionArg.mapText, Expr.map_mapText_id]
    rfl
  rw [FunctionHead.mapText, h, List.map_id]

theorem EnumVariant.map_mapText_id (variants : List EnumVariant) :
    variants.map (EnumVariant.mapText id) = variants := by
  have h : EnumVariant.mapText id = id := by
    funext v
    rw [EnumVariant.mapText, Expr.map_mapText_id]
    rfl
  rw [h, List.map_id]

theorem ExtendsTarget.mapText_id (target : ExtendsTarget) : target.mapText id = target := by
  cases target <;> rfl

mutual

/-- A declaration whose texts and places stay is the same declaration. -/
theorem Decl.map_id : ∀ d : Decl, d.map id id = d
  | .functionDecl head body => by rw [Decl.map, FunctionHead.mapText_id, Line.mapAll_id]
  | .classDecl name base body => by rw [Decl.map, Line.mapAll_id]
  | .varDecl d => by rw [Decl.map, VarDecl.mapText, Expr.map_mapText_id]
  | .constDecl d => by rw [Decl.map, ConstDecl.mapText, Expr.mapText_id]
  | .extendsDecl target => by rw [Decl.map, ExtendsTarget.mapText_id]
  | .enumDecl name variants => by rw [Decl.map, EnumVariant.map_mapText_id]
  | .classNameDecl _ | .signalDecl _ _ => rfl

theorem Stmt.map_id : ∀ s : Stmt, s.map id id = s
  | .ifStmt branch elifs none => by rw [Stmt.map, Condition.map_id, Condition.mapAll_id]
  | .ifStmt branch elifs (some body) => by
    rw [Stmt.map, Condition.map_id, Condition.mapAll_id, Line.mapAll_id]
  | .whileStmt test => by rw [Stmt.map, Condition.map_id]
  | .forStmt test => by rw [Stmt.map, Condition.map_id]
  | .matchStmt subject cases => by rw [Stmt.map, Expr.mapText_id, Condition.mapAll_id]
  | .assignStmt target op value => by rw [Stmt.map, Expr.mapText_id, Expr.mapText_id]
  | .returnStmt value => by rw [Stmt.map, Expr.map_mapText_id]
  | .passStmt => rfl

theorem Condition.map_id : ∀ c : Condition, c.map id id = c
  | .mk e body => by rw [Condition.map, Expr.mapText_id, Line.mapAll_id]

theorem Condition.mapAll_id : ∀ cs : List Condition, Condition.mapAll id id cs = cs
  | [] => rfl
  | c :: cs => by rw [Condition.mapAll, Condition.map_id, Condition.mapAll_id]

/-- A line whose texts and places stay is the same line. -/
theorem Line.map_id : ∀ l : Line, l.map id id = l
  | .decl d span => by rw [Line.map, Decl.map_id]; rfl
  | .stmt s span => by rw [Line.map, Stmt.map_id]; rfl
  | .expr e span => by rw [Line.map, Expr.mapText_id]; rfl
  | .comment _ _ => rfl

theorem Line.mapAll_id : ∀ ls : List Line, Line.mapAll id id ls = ls
  | [] => rfl
  | l :: ls => by rw [Line.mapAll, Line.map_id, Line.mapAll_id]

end

/-! ### The tree without places -/

/-- The location that stands for every place. -/
abbrev Location.nowhere : Location → Location := fun _ => .first

/-- All locations lead to the same one. -/
theorem Location.nowhere_eq (l l' : Location) : l'.nowhere = l.nowhere := rfl

mutual

/-- A declaration without places is one whose places are all the same. -/
theorem Decl.bare_eq_map : ∀ d : Decl, d.bare = d.map id Location.nowhere
  | .functionDecl head body => by
    rw [Decl.bare, Decl.map, FunctionHead.mapText_id, Line.bareAll_eq_mapAll]
  | .classDecl name base body => by rw [Decl.bare, Decl.map, Line.bareAll_eq_mapAll]
  | .varDecl d => by rw [Decl.bare, Decl.map, VarDecl.mapText, Expr.map_mapText_id]
  | .constDecl d => by rw [Decl.bare, Decl.map, ConstDecl.mapText, Expr.mapText_id]
  | .extendsDecl target => by rw [Decl.bare, Decl.map, ExtendsTarget.mapText_id]
  | .enumDecl name variants => by rw [Decl.bare, Decl.map, EnumVariant.map_mapText_id]
  | .classNameDecl _ | .signalDecl _ _ => rfl

theorem Stmt.bare_eq_map : ∀ s : Stmt, s.bare = s.map id Location.nowhere
  | .ifStmt branch elifs none => by
    rw [Stmt.bare, Stmt.map, Condition.bare_eq_map, Condition.bareAll_eq_mapAll]
  | .ifStmt branch elifs (some body) => by
    rw [Stmt.bare, Stmt.map, Condition.bare_eq_map, Condition.bareAll_eq_mapAll,
      Line.bareAll_eq_mapAll]
  | .whileStmt test => by rw [Stmt.bare, Stmt.map, Condition.bare_eq_map]
  | .forStmt test => by rw [Stmt.bare, Stmt.map, Condition.bare_eq_map]
  | .matchStmt subject cases => by
    rw [Stmt.bare, Stmt.map, Expr.mapText_id, Condition.bareAll_eq_mapAll]
  | .assignStmt target op value => by rw [Stmt.bare, Stmt.map, Expr.mapText_id, Expr.mapText_id]
  | .returnStmt value => by rw [Stmt.bare, Stmt.map, Expr.map_mapText_id]
  | .passStmt => rfl

theorem Condition.bare_eq_map : ∀ c : Condition, c.bare = c.map id Location.nowhere
  | .mk e body => by rw [Condition.bare, Condition.map, Expr.mapText_id, Line.bareAll_eq_mapAll]

theorem Condition.bareAll_eq_mapAll : ∀ cs : List Condition,
    Condition.bareAll cs = Condition.mapAll id Location.nowhere cs
  | [] => rfl
  | c :: cs => by
    rw [Condition.bareAll, Condition.mapAll, Condition.bare_eq_map, Condition.bareAll_eq_mapAll]

/-- A line without places is one whose places are all the same, and whose texts stay. -/
theorem Line.bare_eq_map : ∀ l : Line, l.bare = l.map id Location.nowhere
  | .decl d span => by rw [Line.bare, Line.map, Decl.bare_eq_map]; rfl
  | .stmt s span => by rw [Line.bare, Line.map, Stmt.bare_eq_map]; rfl
  | .expr e span => by rw [Line.bare, Line.map, Expr.mapText_id]; rfl
  | .comment _ _ => rfl

theorem Line.bareAll_eq_mapAll : ∀ ls : List Line,
    Line.bareAll ls = Line.mapAll id Location.nowhere ls
  | [] => rfl
  | l :: ls => by rw [Line.bareAll, Line.mapAll, Line.bare_eq_map, Line.bareAll_eq_mapAll]

end

namespace Block

variable {f g : Text → Text} {p : Location → Location}

/-- Of a block only the quotations may change. -/
theorem map_congr {block : Block} (h : ∀ t ∈ block.quotations, f t = g t) :
    block.map f p = block.map g p := by
  rw [← Line.mapAll_eq_map, ← Line.mapAll_eq_map, Line.mapAll_congr h]

/-- A block whose texts and places stay is the same block. -/
theorem map_id (block : Block) : block.map id id = block := by
  rw [← Line.mapAll_eq_map, Line.mapAll_id]

/-- The block without places is the one whose places are all the same. -/
theorem bare_eq_map (block : Block) : block.bare = block.map id Location.nowhere := by
  rw [← Line.bareAll_eq_bare, ← Line.mapAll_eq_map, Line.bareAll_eq_mapAll]

end Block

end GDScript
