import Mathlib.Logic.Relation
import Mathlib.Order.Basic

/-!
The search for an `await` in the code of a module that runs at module level.

The syntax is that of the parser. Holes of array patterns are left out, and
expressions without parts are one form. `F` is the type of functions: neither
their parameters nor their bodies run at module level. The search goes through
statements, expressions and assignment targets, one function for each.

What runs at module level is said over all forms at once: `Node.parts` lists
the parts of a form that run when it runs. `Node.forgotten` lists those the
search does not look at.
-/

namespace OxideJS.ModuleAwait

/-! ### Syntax -/

mutual

inductive Expr (F : Type) where
  /-- A literal, an identifier, `this`, `super` or a meta property. -/
  | leaf
  | await (argument : Expr F)
  | binary (left right : Expr F)
  | logical (left right : Expr F)
  | conditional (test consequent alternate : Expr F)
  | call (callee : Expr F) (arguments : List (Argument F))
  | new (callee : Expr F) (arguments : List (Argument F))
  | computedMember (object expression : Expr F)
  | staticMember (object : Expr F)
  | privateField (object : Expr F)
  | chain (element : ChainElement F)
  | array (elements : List (ArrayElement F))
  | object (properties : List (ObjectProperty F))
  | sequence (expressions : List (Expr F))
  | template (expressions : List (Expr F))
  | taggedTemplate (tag : Expr F) (expressions : List (Expr F))
  | assignment (left : Target F) (right : Expr F)
  | update (argument : SimpleTarget F)
  | unary (argument : Expr F)
  | parenthesized (expression : Expr F)
  | yield (argument : Option (Expr F))
  | privateIn (right : Expr F)
  | importCall (source : Expr F) (options : Option (Expr F))
  | function (f : F)
  | arrow (f : F)
  | classExpr (cls : Class F)
  /-- `as`, `satisfies`, `!` and type assertions. -/
  | typed (expression : Expr F)

inductive Argument (F : Type) where
  | spread (argument : Expr F)
  | expr (e : Expr F)

inductive ArrayElement (F : Type) where
  | elision
  | spread (argument : Expr F)
  | expr (e : Expr F)

/-- The key is there when it is an expression. -/
inductive ObjectProperty (F : Type) where
  | property (computed : Bool) (key : Option (Expr F)) (value : Expr F)
  | spread (argument : Expr F)

inductive ChainElement (F : Type) where
  | call (callee : Expr F) (arguments : List (Argument F))
  | nonNull (expression : Expr F)
  | computedMember (object expression : Expr F)
  | staticMember (object : Expr F)
  | privateField (object : Expr F)

inductive Target (F : Type) where
  | array (elements : List (MaybeDefault F)) (rest : Option (Target F))
  | object (properties : List (TargetProperty F)) (rest : Option (Target F))
  | simple (target : SimpleTarget F)

inductive SimpleTarget (F : Type) where
  | computedMember (object expression : Expr F)
  | staticMember (object : Expr F)
  | privateField (object : Expr F)
  | typed (expression : Expr F)
  | identifier

inductive MaybeDefault (F : Type) where
  | withDefault (binding : Target F) (init : Expr F)
  | target (binding : Target F)

inductive TargetProperty (F : Type) where
  | identifier (init : Option (Expr F))
  | property (name : Option (Expr F)) (binding : MaybeDefault F)

inductive Class (F : Type) where
  | mk (superClass : Option (Expr F)) (body : List (ClassElement F))

/-- Methods, values of properties and static blocks run as functions. -/
inductive ClassElement (F : Type) where
  | method (key : Option (Expr F)) (f : F)
  | property (key : Option (Expr F)) (f : F)
  | staticBlock (f : F)

end

mutual

inductive Pattern (F : Type) where
  | identifier
  | array (elements : List (Pattern F)) (rest : Option (Pattern F))
  | object (properties : List (BindingProperty F)) (rest : Option (Pattern F))
  | assignment (left : Pattern F) (right : Expr F)

inductive BindingProperty (F : Type) where
  | mk (key : Option (Expr F)) (value : Pattern F)

end

structure Declarator (F : Type) where
  id : Pattern F
  init : Option (Expr F)

inductive ForInit (F : Type) where
  | variables (declarations : List (Declarator F))
  | expr (e : Expr F)

inductive ForLeft (F : Type) where
  | variables (declarations : List (Declarator F))
  | target (t : Target F)

inductive Declaration (F : Type) where
  | variables (declarations : List (Declarator F))
  | function (f : F)
  | classDecl (cls : Class F)

inductive DefaultDeclaration (F : Type) where
  | function (f : F)
  | classDecl (cls : Class F)
  | expr (e : Expr F)

mutual

inductive Stmt (F : Type) where
  | block (body : List (Stmt F))
  | ifStmt (test : Expr F) (consequent : Stmt F) (alternate : Option (Stmt F))
  | forStmt (init : Option (ForInit F)) (test update : Option (Expr F)) (body : Stmt F)
  | forIn (left : ForLeft F) (right : Expr F) (body : Stmt F)
  | forOf (isAwait : Bool) (left : ForLeft F) (right : Expr F) (body : Stmt F)
  | whileStmt (test : Expr F) (body : Stmt F)
  | doWhile (test : Expr F) (body : Stmt F)
  | switch (discriminant : Expr F) (cases : List (SwitchCase F))
  /-- A missing finalizer is an empty one. -/
  | tryStmt (block : List (Stmt F)) (handler : Option (CatchClause F)) (finalizer : List (Stmt F))
  | labeled (body : Stmt F)
  | withStmt (object : Expr F) (body : Stmt F)
  | expression (e : Expr F)
  | returnStmt (argument : Option (Expr F))
  | throwStmt (argument : Expr F)
  | declaration (decl : Declaration F)
  | exportNamed (decl : Option (Declaration F))
  | exportDefault (decl : DefaultDeclaration F)
  /-- Imports, `export *`, jumps, `debugger` and the empty statement. -/
  | other

inductive SwitchCase (F : Type) where
  | mk (test : Option (Expr F)) (consequent : List (Stmt F))

inductive CatchClause (F : Type) where
  | mk (param : Option (Pattern F)) (body : List (Stmt F))

end

variable {F : Type}

/-! ### The search -/

mutual

def exprHasTopLevelAwait : Expr F → Bool
  | .leaf => false
  | .await _ => true
  | .binary left right => exprHasTopLevelAwait left || exprHasTopLevelAwait right
  | .logical left right => exprHasTopLevelAwait left || exprHasTopLevelAwait right
  | .conditional test consequent alternate =>
    exprHasTopLevelAwait test || exprHasTopLevelAwait consequent || exprHasTopLevelAwait alternate
  | .call callee args => exprHasTopLevelAwait callee || argumentsHave args
  | .new callee args => exprHasTopLevelAwait callee || argumentsHave args
  | .computedMember object e => exprHasTopLevelAwait object || exprHasTopLevelAwait e
  | .staticMember object => exprHasTopLevelAwait object
  | .privateField object => exprHasTopLevelAwait object
  | .chain element => chainElementHasTopLevelAwait element
  | .array elements => elementsHave elements
  | .object properties => propertiesHave properties
  | .sequence es => exprsHave es
  | .template es => exprsHave es
  | .taggedTemplate tag es => exprHasTopLevelAwait tag || exprsHave es
  | .assignment left right => targetHasTopLevelAwait left || exprHasTopLevelAwait right
  | .update argument => simpleTargetHasTopLevelAwait argument
  | .unary argument => exprHasTopLevelAwait argument
  | .parenthesized e => exprHasTopLevelAwait e
  | .yield argument => optExprHas argument
  | .privateIn right => exprHasTopLevelAwait right
  | .importCall source options => exprHasTopLevelAwait source || optExprHas options
  | .function _ | .arrow _ | .classExpr _ => false
  | .typed _ => false

def optExprHas : Option (Expr F) → Bool
  | none => false
  | some e => exprHasTopLevelAwait e

def exprsHave : List (Expr F) → Bool
  | [] => false
  | e :: es => exprHasTopLevelAwait e || exprsHave es

/-- An argument with spread is no expression. -/
def argumentHas : Argument F → Bool
  | .spread _ => false
  | .expr e => exprHasTopLevelAwait e

def argumentsHave : List (Argument F) → Bool
  | [] => false
  | a :: args => argumentHas a || argumentsHave args

def elementHas : ArrayElement F → Bool
  | .elision => false
  | .spread argument => exprHasTopLevelAwait argument
  | .expr e => exprHasTopLevelAwait e

def elementsHave : List (ArrayElement F) → Bool
  | [] => false
  | e :: elements => elementHas e || elementsHave elements

def propertyHas : ObjectProperty F → Bool
  | .property computed key value => (computed && optExprHas key) || exprHasTopLevelAwait value
  | .spread argument => exprHasTopLevelAwait argument

def propertiesHave : List (ObjectProperty F) → Bool
  | [] => false
  | p :: properties => propertyHas p || propertiesHave properties

def chainElementHasTopLevelAwait : ChainElement F → Bool
  | .call callee args => exprHasTopLevelAwait callee || argumentsHave args
  | .nonNull e => exprHasTopLevelAwait e
  | .computedMember object e => exprHasTopLevelAwait object || exprHasTopLevelAwait e
  | .staticMember object => exprHasTopLevelAwait object
  | .privateField object => exprHasTopLevelAwait object

def targetHasTopLevelAwait : Target F → Bool
  | .array elements rest => maybeDefaultsHave elements || optTargetHas rest
  | .object properties rest => targetPropertiesHave properties || optTargetHas rest
  | .simple target => simpleTargetHasTopLevelAwait target

def optTargetHas : Option (Target F) → Bool
  | none => false
  | some t => targetHasTopLevelAwait t

def simpleTargetHasTopLevelAwait : SimpleTarget F → Bool
  | .computedMember object e => exprHasTopLevelAwait object || exprHasTopLevelAwait e
  | .staticMember object => exprHasTopLevelAwait object
  | .privateField object => exprHasTopLevelAwait object
  | .typed e => exprHasTopLevelAwait e
  | .identifier => false

def targetMaybeDefaultHasTopLevelAwait : MaybeDefault F → Bool
  | .withDefault binding init => targetHasTopLevelAwait binding || exprHasTopLevelAwait init
  | .target binding => targetHasTopLevelAwait binding

def maybeDefaultsHave : List (MaybeDefault F) → Bool
  | [] => false
  | t :: ts => targetMaybeDefaultHasTopLevelAwait t || maybeDefaultsHave ts

def targetPropertyHas : TargetProperty F → Bool
  | .identifier init => optExprHas init
  | .property name binding => optExprHas name || targetMaybeDefaultHasTopLevelAwait binding

def targetPropertiesHave : List (TargetProperty F) → Bool
  | [] => false
  | p :: ps => targetPropertyHas p || targetPropertiesHave ps

end

/-- Of a declaration only the value is searched, not the pattern. -/
def declaratorHas : Declarator F → Bool
  | ⟨_, init⟩ => optExprHas init

def variablesHave (declarations : List (Declarator F)) : Bool := declarations.any declaratorHas

/-- Of a class only the `extends` expression is searched. -/
def classHas : Class F → Bool
  | .mk superClass _ => optExprHas superClass

def forInitHas : ForInit F → Bool
  | .variables declarations => variablesHave declarations
  | .expr e => exprHasTopLevelAwait e

def forLeftHasTopLevelAwait : ForLeft F → Bool
  | .variables declarations => variablesHave declarations
  | .target t => targetHasTopLevelAwait t

def declarationHas : Declaration F → Bool
  | .variables declarations => variablesHave declarations
  | .function _ => false
  | .classDecl cls => classHas cls

def defaultDeclarationHas : DefaultDeclaration F → Bool
  | .function _ => false
  | .classDecl cls => classHas cls
  | .expr e => exprHasTopLevelAwait e

mutual

def stmtHasTopLevelAwait : Stmt F → Bool
  | .block body => stmtsHave body
  | .ifStmt test consequent alternate =>
    exprHasTopLevelAwait test || stmtHasTopLevelAwait consequent || optStmtHas alternate
  | .forStmt init test update body =>
    init.any forInitHas || optExprHas test || optExprHas update || stmtHasTopLevelAwait body
  | .forIn left right body =>
    forLeftHasTopLevelAwait left || exprHasTopLevelAwait right || stmtHasTopLevelAwait body
  | .forOf isAwait left right body =>
    isAwait || forLeftHasTopLevelAwait left || exprHasTopLevelAwait right ||
      stmtHasTopLevelAwait body
  | .whileStmt test body => exprHasTopLevelAwait test || stmtHasTopLevelAwait body
  | .doWhile test body => exprHasTopLevelAwait test || stmtHasTopLevelAwait body
  | .switch discriminant cases => exprHasTopLevelAwait discriminant || casesHave cases
  | .tryStmt block handler finalizer =>
    stmtsHave block || optCatchHas handler || stmtsHave finalizer
  | .labeled body => stmtHasTopLevelAwait body
  | .withStmt object body => exprHasTopLevelAwait object || stmtHasTopLevelAwait body
  | .expression e => exprHasTopLevelAwait e
  | .returnStmt argument => optExprHas argument
  | .throwStmt argument => exprHasTopLevelAwait argument
  | .declaration decl => declarationHas decl
  | .exportNamed decl => decl.any declarationHas
  | .exportDefault decl => defaultDeclarationHas decl
  | .other => false

def optStmtHas : Option (Stmt F) → Bool
  | none => false
  | some s => stmtHasTopLevelAwait s

def stmtsHave : List (Stmt F) → Bool
  | [] => false
  | s :: body => stmtHasTopLevelAwait s || stmtsHave body

def caseHas : SwitchCase F → Bool
  | .mk test consequent => optExprHas test || stmtsHave consequent

def casesHave : List (SwitchCase F) → Bool
  | [] => false
  | c :: cases => caseHas c || casesHave cases

def catchHas : CatchClause F → Bool
  | .mk _ body => stmtsHave body

def optCatchHas : Option (CatchClause F) → Bool
  | none => false
  | some c => catchHas c

end

def moduleHasTopLevelAwait (body : List (Stmt F)) : Bool := body.any stmtHasTopLevelAwait

/-! ### What runs at module level -/

/-- A form of the syntax. -/
inductive Node (F : Type) where
  | expr (e : Expr F)
  | argument (a : Argument F)
  | element (e : ArrayElement F)
  | property (p : ObjectProperty F)
  | chainElement (e : ChainElement F)
  | target (t : Target F)
  | simpleTarget (t : SimpleTarget F)
  | maybeDefault (t : MaybeDefault F)
  | targetProperty (p : TargetProperty F)
  | cls (c : Class F)
  | classElement (e : ClassElement F)
  | pattern (p : Pattern F)
  | bindingProperty (p : BindingProperty F)
  | declarator (d : Declarator F)
  | forInit (i : ForInit F)
  | forLeft (l : ForLeft F)
  | declaration (d : Declaration F)
  | defaultDeclaration (d : DefaultDeclaration F)
  | stmt (s : Stmt F)
  | switchCase (c : SwitchCase F)
  | catchClause (c : CatchClause F)

def exprParts : Expr F → List (Node F)
  | .leaf | .function _ | .arrow _ => []
  | .await e | .staticMember e | .privateField e | .unary e | .parenthesized e | .privateIn e
  | .typed e => [.expr e]
  | .binary l r | .logical l r | .computedMember l r => [.expr l, .expr r]
  | .conditional t c a => [.expr t, .expr c, .expr a]
  | .call f args | .new f args => .expr f :: args.map .argument
  | .chain element => [.chainElement element]
  | .array elements => elements.map .element
  | .object properties => properties.map .property
  | .sequence es | .template es => es.map .expr
  | .taggedTemplate tag es => .expr tag :: es.map .expr
  | .assignment left right => [.target left, .expr right]
  | .update t => [.simpleTarget t]
  | .yield e => e.toList.map .expr
  | .importCall source options => .expr source :: options.toList.map .expr
  | .classExpr c => [.cls c]

def stmtParts : Stmt F → List (Node F)
  | .block body => body.map .stmt
  | .ifStmt test c a => .expr test :: .stmt c :: a.toList.map .stmt
  | .forStmt init test update body =>
    init.toList.map .forInit ++ test.toList.map .expr ++ update.toList.map .expr ++ [.stmt body]
  | .forIn left right body | .forOf _ left right body =>
    [.forLeft left, .expr right, .stmt body]
  | .whileStmt e body | .doWhile e body | .withStmt e body => [.expr e, .stmt body]
  | .switch e cases => .expr e :: cases.map .switchCase
  | .tryStmt block handler finalizer =>
    block.map .stmt ++ handler.toList.map .catchClause ++ finalizer.map .stmt
  | .labeled body => [.stmt body]
  | .expression e | .throwStmt e => [.expr e]
  | .returnStmt e => e.toList.map .expr
  | .declaration d => [.declaration d]
  | .exportNamed d => d.toList.map .declaration
  | .exportDefault d => [.defaultDeclaration d]
  | .other => []

/-- The parts of a form that run when it runs. -/
def Node.parts : Node F → List (Node F)
  | .expr e => exprParts e
  | .argument (.spread e) | .argument (.expr e) => [.expr e]
  | .element .elision => []
  | .element (.spread e) | .element (.expr e) => [.expr e]
  | .property (.property computed key value) =>
    (if computed then key.toList.map .expr else []) ++ [.expr value]
  | .property (.spread e) => [.expr e]
  | .chainElement (.call f args) => .expr f :: args.map .argument
  | .chainElement (.computedMember l r) => [.expr l, .expr r]
  | .chainElement (.nonNull e) | .chainElement (.staticMember e)
  | .chainElement (.privateField e) => [.expr e]
  | .target (.array elements rest) => elements.map .maybeDefault ++ rest.toList.map .target
  | .target (.object properties rest) => properties.map .targetProperty ++ rest.toList.map .target
  | .target (.simple t) => [.simpleTarget t]
  | .simpleTarget (.computedMember l r) => [.expr l, .expr r]
  | .simpleTarget (.staticMember e) | .simpleTarget (.privateField e)
  | .simpleTarget (.typed e) => [.expr e]
  | .simpleTarget .identifier => []
  | .maybeDefault (.withDefault t e) => [.target t, .expr e]
  | .maybeDefault (.target t) => [.target t]
  | .targetProperty (.identifier init) => init.toList.map .expr
  | .targetProperty (.property name t) => name.toList.map .expr ++ [.maybeDefault t]
  | .cls (.mk superClass body) => superClass.toList.map .expr ++ body.map .classElement
  | .classElement (.method key _) | .classElement (.property key _) => key.toList.map .expr
  | .classElement (.staticBlock _) => []
  | .pattern .identifier => []
  | .pattern (.array elements rest) => elements.map .pattern ++ rest.toList.map .pattern
  | .pattern (.object properties rest) =>
    properties.map .bindingProperty ++ rest.toList.map .pattern
  | .pattern (.assignment left right) => [.pattern left, .expr right]
  | .bindingProperty (.mk key value) => key.toList.map .expr ++ [.pattern value]
  | .declarator d => .pattern d.id :: d.init.toList.map .expr
  | .forInit (.variables ds) | .forLeft (.variables ds) | .declaration (.variables ds) =>
    ds.map .declarator
  | .forInit (.expr e) | .defaultDeclaration (.expr e) => [.expr e]
  | .forLeft (.target t) => [.target t]
  | .declaration (.classDecl c) | .defaultDeclaration (.classDecl c) => [.cls c]
  | .declaration (.function _) | .defaultDeclaration (.function _) => []
  | .stmt s => stmtParts s
  | .switchCase (.mk test body) => test.toList.map .expr ++ body.map .stmt
  | .catchClause (.mk param body) => param.toList.map .pattern ++ body.map .stmt

/-- An `await` expression or a `for await` loop. -/
def Node.isAwait : Node F → Bool
  | .expr (.await _) => true
  | .stmt (.forOf isAwait _ _ _) => isAwait
  | _ => false

/-- The form `m` runs as a part of `n`, at any depth. -/
def Node.Runs : Node F → Node F → Prop := Relation.ReflTransGen fun n m => m ∈ n.parts

def RunsAtModuleLevel (body : List (Stmt F)) (n : Node F) : Prop :=
  ∃ s ∈ body, Node.Runs (.stmt s) n

/-- The parts the search does not look at: the argument of a spread argument,
a class that is an expression, the elements of a class, patterns that bind
variables, and expressions with types. -/
def Node.forgotten : Node F → List (Node F)
  | .argument (.spread e) => [.expr e]
  | .expr (.classExpr c) => [.cls c]
  | .expr (.typed e) => [.expr e]
  | .cls (.mk _ body) => body.map .classElement
  | .declarator d => [.pattern d.id]
  | .catchClause (.mk param _) => param.toList.map .pattern
  | .classElement e => parts (.classElement e)
  | .pattern p => parts (.pattern p)
  | .bindingProperty p => parts (.bindingProperty p)
  | _ => []

/-- The form `m` is searched as a part of `n`, at any depth. -/
def Node.Searches : Node F → Node F → Prop :=
  Relation.ReflTransGen fun n m => m ∈ n.parts ∧ m ∉ n.forgotten

/-- An `await` stands where the search goes. -/
def InSight (body : List (Stmt F)) : Prop :=
  ∃ s ∈ body, ∃ n : Node F, Node.Searches (.stmt s) n ∧ n.isAwait = true

/-! ### The search finds what it looks at -/

/-- What the search says of a form. -/
def Node.found : Node F → Bool
  | .expr e => exprHasTopLevelAwait e
  | .argument a => argumentHas a
  | .element e => elementHas e
  | .property p => propertyHas p
  | .chainElement e => chainElementHasTopLevelAwait e
  | .target t => targetHasTopLevelAwait t
  | .simpleTarget t => simpleTargetHasTopLevelAwait t
  | .maybeDefault t => targetMaybeDefaultHasTopLevelAwait t
  | .targetProperty p => targetPropertyHas p
  | .cls c => classHas c
  | .classElement _ | .pattern _ | .bindingProperty _ => false
  | .declarator d => declaratorHas d
  | .forInit i => forInitHas i
  | .forLeft l => forLeftHasTopLevelAwait l
  | .declaration d => declarationHas d
  | .defaultDeclaration d => defaultDeclarationHas d
  | .stmt s => stmtHasTopLevelAwait s
  | .switchCase c => caseHas c
  | .catchClause c => catchHas c

theorem eq_any {α : Type} {f : α → Bool} {fs : List α → Bool} (hnil : fs [] = false)
    (hcons : ∀ a as, fs (a :: as) = (f a || fs as)) : fs = fun as => as.any f := by
  ext1 as
  induction as with
  | nil => exact hnil
  | cons a as ih => rw [hcons, ih, List.any_cons]

theorem eq_any_option {α : Type} {f : α → Bool} {fo : Option α → Bool} (hnone : fo none = false)
    (hsome : ∀ a, fo (some a) = f a) : fo = fun o => o.any f := by
  ext1 o
  cases o with
  | none => exact hnone
  | some a => exact hsome a

theorem exprsHave_eq : exprsHave = fun es : List (Expr F) => es.any exprHasTopLevelAwait :=
  eq_any rfl fun _ _ => rfl

theorem optExprHas_eq : optExprHas = fun e : Option (Expr F) => e.any exprHasTopLevelAwait :=
  eq_any_option rfl fun _ => rfl

theorem argumentsHave_eq : argumentsHave = fun as : List (Argument F) => as.any argumentHas :=
  eq_any rfl fun _ _ => rfl

theorem elementsHave_eq : elementsHave = fun es : List (ArrayElement F) => es.any elementHas :=
  eq_any rfl fun _ _ => rfl

theorem propertiesHave_eq :
    propertiesHave = fun ps : List (ObjectProperty F) => ps.any propertyHas :=
  eq_any rfl fun _ _ => rfl

theorem optTargetHas_eq :
    optTargetHas = fun t : Option (Target F) => t.any targetHasTopLevelAwait :=
  eq_any_option rfl fun _ => rfl

theorem maybeDefaultsHave_eq :
    maybeDefaultsHave = fun ts : List (MaybeDefault F) =>
      ts.any targetMaybeDefaultHasTopLevelAwait :=
  eq_any rfl fun _ _ => rfl

theorem targetPropertiesHave_eq :
    targetPropertiesHave = fun ps : List (TargetProperty F) => ps.any targetPropertyHas :=
  eq_any rfl fun _ _ => rfl

theorem stmtsHave_eq : stmtsHave = fun ss : List (Stmt F) => ss.any stmtHasTopLevelAwait :=
  eq_any rfl fun _ _ => rfl

theorem optStmtHas_eq : optStmtHas = fun s : Option (Stmt F) => s.any stmtHasTopLevelAwait :=
  eq_any_option rfl fun _ => rfl

theorem casesHave_eq : casesHave = fun cs : List (SwitchCase F) => cs.any caseHas :=
  eq_any rfl fun _ _ => rfl

theorem optCatchHas_eq : optCatchHas = fun c : Option (CatchClause F) => c.any catchHas :=
  eq_any_option rfl fun _ => rfl

theorem any_toList {α : Type} (o : Option α) (p : α → Bool) : o.toList.any p = o.any p := by
  cases o with
  | none => rfl
  | some a => exact Bool.or_false (p a)

/-- Of an expression that is entered, the search is the disjunction of its answers for the
parts. -/
theorem exprHas_eq {e : Expr F} (h : Node.forgotten (.expr e) = []) :
    exprHasTopLevelAwait e = (Node.isAwait (.expr e) || (exprParts e).any Node.found) := by
  cases e with
  | await e => rfl
  | classExpr c | typed e => cases h
  | _ =>
    simp only [exprHasTopLevelAwait, exprParts, Node.isAwait, Node.found, exprsHave_eq,
      argumentsHave_eq, elementsHave_eq, propertiesHave_eq, optExprHas_eq, List.any_cons,
      List.any_nil, List.any_map, Function.comp_def, any_toList, Bool.or_false, Bool.false_or,
      Bool.or_assoc]

theorem stmtHas_eq (s : Stmt F) :
    stmtHasTopLevelAwait s = (Node.isAwait (.stmt s) || (stmtParts s).any Node.found) := by
  cases s <;>
    simp only [stmtHasTopLevelAwait, stmtParts, Node.isAwait, Node.found, stmtsHave_eq,
      optStmtHas_eq, casesHave_eq, optCatchHas_eq, optExprHas_eq, List.any_cons, List.any_nil,
      List.any_append, List.any_map, Function.comp_def, any_toList, Bool.or_false, Bool.false_or,
      Bool.or_assoc]

/-- A form of which the search sees all parts, those it forgets being found nowhere. -/
theorem found_iff_of_eq {n : Node F} (h : n.found = (n.isAwait || n.parts.any Node.found))
    (hforgotten : ∀ m ∈ n.forgotten, m.found = false) :
    n.found = true ↔
      n.isAwait = true ∨ ∃ m ∈ n.parts, m ∉ n.forgotten ∧ m.found = true := by
  rw [h, Bool.or_eq_true, List.any_eq_true]
  refine or_congr_right (exists_congr fun m => and_congr_right fun _ => ?_)
  refine ⟨fun hm => ⟨fun hmem => ?_, hm⟩, And.right⟩
  rw [hforgotten m hmem] at hm
  cases hm

/-- A form the search does not enter. -/
theorem found_iff_of_forgotten {n : Node F} (hfound : n.found = false)
    (hawait : n.isAwait = false) (hparts : ∀ m ∈ n.parts, m ∈ n.forgotten) :
    n.found = true ↔
      n.isAwait = true ∨ ∃ m ∈ n.parts, m ∉ n.forgotten ∧ m.found = true := by
  rw [hfound, hawait]
  refine ⟨fun h => (by cases h), ?_⟩
  rintro (h | ⟨m, hm, hseen, -⟩)
  · cases h
  · exact absurd (hparts m hm) hseen

/-- What one step of the search does: a form is found when it is an `await` or one of the parts
the search goes into is found. -/
theorem found_iff (n : Node F) :
    n.found = true ↔
      n.isAwait = true ∨ ∃ m ∈ n.parts, m ∉ n.forgotten ∧ m.found = true := by
  cases n with
  | expr e =>
    cases e with
    | classExpr c | typed e => exact found_iff_of_forgotten rfl rfl fun _ => id
    | _ => exact found_iff_of_eq (exprHas_eq rfl) fun _ hm => by cases hm
  | stmt s => exact found_iff_of_eq (stmtHas_eq s) fun _ hm => by cases hm
  | classElement e => exact found_iff_of_forgotten rfl rfl fun _ => id
  | pattern p => exact found_iff_of_forgotten rfl rfl fun _ => id
  | bindingProperty p => exact found_iff_of_forgotten rfl rfl fun _ => id
  | argument a =>
    cases a with
    | spread e => exact found_iff_of_forgotten rfl rfl fun _ => id
    | expr e => exact found_iff_of_eq (Bool.or_false _).symm fun _ hm => by cases hm
  | declarator d =>
    refine found_iff_of_eq ?_ (List.forall_mem_singleton.mpr rfl)
    simp only [Node.parts, Node.isAwait, Node.found, declaratorHas, optExprHas_eq, List.any_cons,
      List.any_map, Function.comp_def, any_toList, Bool.false_or]
  | cls c =>
    obtain ⟨superClass, body⟩ := c
    refine found_iff_of_eq ?_ (List.forall_mem_map.mpr fun _ _ => rfl)
    simp [Node.parts, Node.isAwait, Node.found, classHas, optExprHas_eq, List.any_map,
      Function.comp_def, any_toList]
  | catchClause c =>
    obtain ⟨param, body⟩ := c
    refine found_iff_of_eq ?_ (List.forall_mem_map.mpr fun _ _ => rfl)
    cases param <;>
      simp [Node.parts, Node.isAwait, Node.found, catchHas, stmtsHave_eq, List.any_map,
        Function.comp_def]
  | property p =>
    refine found_iff_of_eq ?_ fun _ hm => by cases hm
    rcases p with ⟨_ | _, key, value⟩ | e <;>
      simp only [Node.parts, Node.isAwait, Node.found, propertyHas, optExprHas_eq, List.any_cons,
        List.any_append, List.any_nil, List.any_map, Function.comp_def, any_toList,
        Bool.or_false, Bool.false_or, Bool.true_and, Bool.false_and, if_true, Bool.false_eq_true,
        if_false]
  | element a | chainElement a | target a | simpleTarget a | maybeDefault a | targetProperty a
  | forInit a | forLeft a | declaration a | defaultDeclaration a | switchCase a =>
    refine found_iff_of_eq ?_ fun _ hm => by cases hm
    cases a <;>
      simp only [Node.parts, Node.isAwait, Node.found, elementHas, chainElementHasTopLevelAwait,
        targetHasTopLevelAwait, simpleTargetHasTopLevelAwait, targetMaybeDefaultHasTopLevelAwait,
        targetPropertyHas, forInitHas, forLeftHasTopLevelAwait, declarationHas,
        defaultDeclarationHas, caseHas, variablesHave, argumentsHave_eq, maybeDefaultsHave_eq,
        targetPropertiesHave_eq, optTargetHas_eq, optExprHas_eq, stmtsHave_eq, List.any_cons,
        List.any_nil, List.any_append, List.any_map, Function.comp_def, any_toList,
        Bool.or_false, Bool.false_or]

/-- The search finds every `await` it comes to. -/
theorem found_of_searches {n m : Node F} (h : n.Searches m) (hm : m.isAwait = true) :
    n.found = true := by
  induction h using Relation.ReflTransGen.head_induction_on with
  | refl => exact (found_iff m).mpr (.inl hm)
  | head hstep _ ih => exact (found_iff _).mpr (.inr ⟨_, hstep.1, hstep.2, ih⟩)

/-! ### What is found stands where the search goes -/

theorem sizeOf_lt_of_mem_toList {α : Type} [SizeOf α] {o : Option α} {a : α} (h : a ∈ o.toList) :
    sizeOf a < sizeOf o := by
  rw [Option.mem_toList.mp h, Option.some.sizeOf_spec]
  omega

theorem sizeOf_lt_of_mem_exprParts {e : Expr F} {m : Node F} (h : m ∈ exprParts e) :
    sizeOf m < 1 + sizeOf e := by
  cases e <;>
    simp only [exprParts, List.mem_cons, List.mem_map, List.not_mem_nil, or_false] at h <;>
    grind [→ List.sizeOf_lt_of_mem, → sizeOf_lt_of_mem_toList]

theorem sizeOf_lt_of_mem_stmtParts {s : Stmt F} {m : Node F} (h : m ∈ stmtParts s) :
    sizeOf m < 1 + sizeOf s := by
  cases s <;>
    simp only [stmtParts, List.mem_cons, List.mem_append, List.mem_map, List.not_mem_nil,
      or_false] at h <;>
    grind [→ List.sizeOf_lt_of_mem, → sizeOf_lt_of_mem_toList]

theorem sizeOf_lt_of_mem_parts {n m : Node F} (h : m ∈ n.parts) : sizeOf m < sizeOf n := by
  cases n with
  | expr e => exact Node.expr.sizeOf_spec e ▸ sizeOf_lt_of_mem_exprParts h
  | stmt s => exact Node.stmt.sizeOf_spec s ▸ sizeOf_lt_of_mem_stmtParts h
  | declarator d =>
    simp only [Node.parts, List.mem_cons, List.mem_map] at h
    grind [→ sizeOf_lt_of_mem_toList, Declarator]
  | argument a | element a | property a | chainElement a | target a | simpleTarget a
  | maybeDefault a | targetProperty a | cls a | classElement a | pattern a | bindingProperty a
  | forInit a | forLeft a | declaration a | defaultDeclaration a | switchCase a
  | catchClause a =>
    cases a <;>
      simp only [Node.parts, List.mem_cons, List.mem_append, List.mem_map, List.not_mem_nil,
        or_false] at h <;>
      grind [→ List.sizeOf_lt_of_mem, → sizeOf_lt_of_mem_toList]

/-- Down from a form that is found, through parts that are found, the search comes to an
`await`. -/
theorem searches_of_found {n : Node F} (h : n.found = true) :
    ∃ m, n.Searches m ∧ m.isAwait = true := by
  obtain hawait | ⟨part, hpart, hseen, hfound⟩ := (found_iff n).mp h
  · exact ⟨n, .refl, hawait⟩
  · have := sizeOf_lt_of_mem_parts hpart
    obtain ⟨m, hsearch, hm⟩ := searches_of_found hfound
    exact ⟨m, .head ⟨hpart, hseen⟩ hsearch, hm⟩
termination_by sizeOf n

theorem moduleHasTopLevelAwait_iff (body : List (Stmt F)) :
    moduleHasTopLevelAwait body = true ↔ InSight body := by
  rw [moduleHasTopLevelAwait, List.any_eq_true]
  refine exists_congr fun s => and_congr_right fun _ => ⟨fun h => ?_, ?_⟩
  · exact searches_of_found (n := .stmt s) h
  · rintro ⟨n, hsearch, hn⟩
    exact found_of_searches hsearch hn

/-- A way down to a form is searched all along, or it goes through a
forgotten part. -/
theorem searches_or_forgotten {n m : Node F} (h : n.Runs m) :
    n.Searches m ∨ ∃ k part, n.Runs k ∧ part ∈ k.parts ∧ part ∈ k.forgotten ∧ part.Runs m := by
  induction h with
  | refl => exact .inl .refl
  | tail hpath hstep ih =>
    rename_i k m
    obtain hsearch | ⟨k', part, hk', hpart, hforgotten, hruns⟩ := ih
    · by_cases hforgotten : m ∈ k.forgotten
      · exact .inr ⟨k, m, hpath, hstep, hforgotten, .refl⟩
      · exact .inl (hsearch.tail ⟨hstep, hforgotten⟩)
    · exact .inr ⟨k', part, hk', hpart, hforgotten, hruns.tail hstep⟩

/-- No `await` at module level is missed, exactly when an `await` in a forgotten part is never
alone: another one stands where the search goes. -/
theorem topLevelAwait_found_iff (body : List (Stmt F)) :
    (∀ n, RunsAtModuleLevel body n → n.isAwait = true → moduleHasTopLevelAwait body = true) ↔
      ∀ k part m, RunsAtModuleLevel body k → part ∈ k.parts → part ∈ k.forgotten →
        part.Runs m → m.isAwait = true → InSight body := by
  rw [moduleHasTopLevelAwait_iff]
  constructor
  · rintro h k part m ⟨s, hs, hk⟩ hpart - hruns hm
    exact h m ⟨s, hs, (hk.tail hpart).trans hruns⟩ hm
  · rintro h n ⟨s, hs, hruns⟩ hn
    obtain hsearch | ⟨k, part, hk, hpart, hmem, hbelow⟩ := searches_or_forgotten hruns
    · exact ⟨s, hs, n, hsearch, hn⟩
    · exact h k part n ⟨s, hs, hk⟩ hpart hmem hbelow hn

/-- `f(...await x)` -/
def spreadAwait : List (Stmt Unit) :=
  [.expression (.call .leaf [.spread (.await .leaf)])]

/-- `const [a = await x] = y` -/
def defaultAwait : List (Stmt Unit) :=
  [.declaration (.variables [⟨.array [.assignment .identifier (.await .leaf)] none, some .leaf⟩])]

/-- `(class extends (await x) {})` -/
def heritageAwait : List (Stmt Unit) :=
  [.expression (.classExpr (.mk (some (.await .leaf)) []))]

/-- `class A { [await x]() {} }` -/
def computedKeyAwait : List (Stmt Unit) :=
  [.declaration (.classDecl (.mk none [.method (some (.await .leaf)) ()]))]

/-- The search answers false for an `await` in the argument of a spread, in
a default of a pattern, in the heritage of a class expression and in a
computed key of a class. -/
theorem topLevelAwait_missed :
    (RunsAtModuleLevel spreadAwait (.expr (.await .leaf)) ∧
      moduleHasTopLevelAwait spreadAwait = false) ∧
    (RunsAtModuleLevel defaultAwait (.expr (.await .leaf)) ∧
      moduleHasTopLevelAwait defaultAwait = false) ∧
    (RunsAtModuleLevel heritageAwait (.expr (.await .leaf)) ∧
      moduleHasTopLevelAwait heritageAwait = false) ∧
    RunsAtModuleLevel computedKeyAwait (.expr (.await .leaf)) ∧
      moduleHasTopLevelAwait computedKeyAwait = false := by
  refine ⟨⟨⟨_, List.mem_singleton_self _, ?_⟩, rfl⟩, ⟨⟨_, List.mem_singleton_self _, ?_⟩, rfl⟩,
    ⟨⟨_, List.mem_singleton_self _, ?_⟩, rfl⟩, ⟨_, List.mem_singleton_self _, ?_⟩, rfl⟩
  · refine .head (List.mem_singleton_self _) (.head (b := .argument (.spread (.await .leaf))) ?_ ?_)
    · exact List.mem_cons_of_mem _ (List.mem_singleton_self _)
    · exact .single (List.mem_singleton_self _)
  · refine .head (List.mem_singleton_self _) (.head (List.mem_singleton_self _) ?_)
    refine .head List.mem_cons_self (.head List.mem_cons_self ?_)
    exact .single (List.mem_cons_of_mem _ (List.mem_singleton_self _))
  · refine .head (List.mem_singleton_self _) (.head (List.mem_singleton_self _) ?_)
    exact .single List.mem_cons_self
  · refine .head (List.mem_singleton_self _) (.head (List.mem_singleton_self _) ?_)
    exact .head List.mem_cons_self (.single List.mem_cons_self)

end OxideJS.ModuleAwait
