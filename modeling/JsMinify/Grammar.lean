import JsMinify.Grammar.Action

/-!
# The grammar

The rules of ECMAScript 5 programs, each with the action that builds its node. Expressions come in
three variants: the plain one, one without the operator `in` (for the header of a `for`), and one
that does not begin with a brace (for statements, so that a block is no object). A function may begin
a statement as an expression too; the automaton prefers its declaration.
-/

namespace JsMinify

namespace Grammar

/-- The levels of expressions, from the loosest to the tightest. -/
inductive Level where
  | comma | assignment | conditional | logicalOr | logicalAnd | bitOr | bitXor | bitAnd
  | equality | relational | shift | additive | multiplicative
  | unary | update | leftSide | call | creation | member | primary
  deriving DecidableEq, Repr

/-- The variants of expressions. -/
inductive Variant where
  | plain | noIn | noBrace
  deriving DecidableEq, Repr

/-- The nonterminal symbols. -/
inductive Nonterminal where
  | expr (level : Level) (variant : Variant)
  | empty | program | sourceElements | sourceElementList | sourceElement
  | statement | block
  | literal | booleanLiteral | nullLiteral | numericLiteral | stringLiteral | regexLiteral
  | identifier | arrayLiteral | elementList | elisionOpt | elision
  | objectLiteral | propertyList | property | propertyName
  | arguments | argumentList | unaryCommon | assignmentOperator
  | varStatement | varDeclList (variant : Variant) | varDecl (variant : Variant)
  | initializer (variant : Variant)
  | emptyStatement | exprStatement | ifStatement | iteration | exprOpt (variant : Variant)
  | continueStatement | breakStatement | returnStatement | withStatement
  | switchStatement | caseBlock | caseClausesOpt | caseClauses | caseClause | defaultClause
  | labelled | throwStatement | tryStatement | catchClause | finallyClause | debuggerStatement
  | functionDecl | functionExpr | parameters | functionBody
  deriving DecidableEq, Repr

/-- A symbol: a kind of tokens, or a nonterminal. -/
inductive Sym where
  | t (kind : TokenKind)
  | n (symbol : Nonterminal)
  deriving DecidableEq, Repr

/-- A rule of the grammar. -/
structure Rule where
  left : Nonterminal
  right : List Sym
  action : Action
  deriving DecidableEq, Repr

/-- An expression of any level. -/
def expr : Sym := .n (.expr .comma .plain)

/-- An expression without a comma. -/
def assignmentExpr : Sym := .n (.expr .assignment .plain)

/-- Rules that pass on what their only symbol stands for. -/
def passes (left : Nonterminal) (rights : List Sym) : List Rule :=
  rights.map fun s => ⟨left, [s], .pass 0⟩

/-- Rules for a list, with or without a separator between its items. -/
def listOf (left : Nonterminal) (item : Sym) : Option TokenKind → List Rule
  | none => [⟨left, [item], .seq [.part 0]⟩, ⟨left, [.n left, item], .seq [.items 0, .part 1]⟩]
  | some sep =>
    [⟨left, [item], .seq [.part 0]⟩, ⟨left, [.n left, .t sep, item], .seq [.items 0, .part 2]⟩]

/-- Rules for operators of one level that associate to the left. -/
def binaryLevel (left operand right : Nonterminal) (ops : List TokenKind) : List Rule :=
  ⟨left, [.n operand], .pass 0⟩ ::
    ops.map fun op => ⟨left, [.n left, .t op, .n right], .operator .binary 1 [.part 0, .part 2]⟩

/-- A level of binary operators in one variant: its operands are of the level below, on the right in
the variant `side`. -/
def operators (level below : Level) (v vBelow side : Variant) (ops : List TokenKind) : List Rule :=
  binaryLevel (.expr level v) (.expr below vBelow) (.expr below side) ops

def programRules : List Rule :=
  [⟨.empty, [], .absent⟩,
    ⟨.program, [.n .sourceElements], .make .program 0 [.items 0]⟩]
  ++ passes .sourceElements [.n .empty, .n .sourceElementList]
  ++ listOf .sourceElementList (.n .sourceElement) none
  ++ passes .sourceElement [.n .statement, .n .functionDecl]
  ++ passes .statement
    [.n .block, .n .varStatement, .n .emptyStatement, .n .exprStatement, .n .ifStatement,
      .n .iteration, .n .continueStatement, .n .breakStatement, .n .returnStatement,
      .n .withStatement, .n .switchStatement, .n .labelled, .n .throwStatement, .n .tryStatement,
      .n .debuggerStatement, .n .functionDecl]
  ++ [⟨.block, [.t .lbrace, .n .sourceElements, .t .rbrace], .make .block 1 [.items 1]⟩]

def literalRules : List Rule :=
  passes .literal
    [.n .nullLiteral, .n .booleanLiteral, .n .numericLiteral, .n .stringLiteral, .n .regexLiteral]
  ++ [⟨.booleanLiteral, [.t .kwTrue], .slot (.leaf .boolean 0)⟩,
    ⟨.booleanLiteral, [.t .kwFalse], .slot (.leaf .boolean 0)⟩,
    ⟨.nullLiteral, [.t .kwNull], .slot (.leaf .null 0)⟩,
    ⟨.numericLiteral, [.t .number], .slot (.leaf .number 0)⟩,
    ⟨.stringLiteral, [.t .string], .slot (.leaf .string 0)⟩,
    ⟨.regexLiteral, [.t .regex], .slot (.leaf .regex 0)⟩,
    ⟨.identifier, [.t .identifier], .slot (.leaf .identifier 0)⟩]

def primaryRules : List Rule :=
  passes (.expr .primary .plain) [.n (.expr .primary .noBrace), .n .objectLiteral]
  ++ [⟨.expr .primary .noBrace, [.n .identifier], .nameExpr⟩,
    ⟨.expr .primary .noBrace, [.t .kwThis], .make .this 0 []⟩]
  ++ passes (.expr .primary .noBrace) [.n .literal, .n .arrayLiteral]
  ++ [⟨.expr .primary .noBrace, [.t .lparen, expr, .t .rparen], .parens⟩,
    ⟨.arrayLiteral, [.t .lbracket, .n .elisionOpt, .t .rbracket], .make .array 1 [.items 1]⟩,
    ⟨.arrayLiteral, [.t .lbracket, .n .elementList, .t .rbracket], .make .array 0 [.items 1]⟩,
    ⟨.arrayLiteral, [.t .lbracket, .n .elementList, .t .comma, .n .elisionOpt, .t .rbracket],
      .make .array 0 [.items 1, .items 3]⟩,
    ⟨.elementList, [.n .elisionOpt, assignmentExpr], .seq [.items 0, .part 1]⟩,
    ⟨.elementList, [.n .elementList, .t .comma, .n .elisionOpt, assignmentExpr],
      .seq [.items 0, .items 2, .part 3]⟩,
    ⟨.elisionOpt, [.n .empty], .seq []⟩,
    ⟨.elisionOpt, [.n .elision], .pass 0⟩,
    ⟨.elision, [.t .comma], .seq [.leaf .elision 0]⟩,
    ⟨.elision, [.n .elision, .t .comma], .seq [.items 0, .leaf .elision 1]⟩,
    ⟨.objectLiteral, [.t .lbrace, .t .rbrace], .make .object 0 []⟩,
    ⟨.objectLiteral, [.t .lbrace, .n .propertyList, .t .rbrace], .make .object 1 [.items 1]⟩,
    ⟨.objectLiteral, [.t .lbrace, .n .propertyList, .t .comma, .t .rbrace],
      .make .object 1 [.items 1]⟩]
  ++ listOf .propertyList (.n .property) (some .comma)
  ++ [⟨.property, [.n .propertyName, .t .colon, assignmentExpr],
      .operator .assign 1 [.part 0, .part 2]⟩,
    ⟨.property,
      [.t .getProp, .n .propertyName, .t .lparen, .t .rparen, .t .lbrace, .n .functionBody,
        .t .rbrace],
      .make .getter 1 [.part 1, .part 5]⟩,
    ⟨.property,
      [.t .setProp, .n .propertyName, .t .lparen, .n .parameters, .t .rparen, .t .lbrace,
        .n .functionBody, .t .rbrace],
      .make .setter 1 [.part 1, .part 3, .part 6]⟩]
  ++ passes .propertyName [.n .identifier, .n .stringLiteral, .n .numericLiteral]

/-- Access to members, in one variant. -/
def accessRules (left : Nonterminal) : List Rule :=
  [⟨left, [.n left, .t .lbracket, expr, .t .rbracket], .make .bracket 0 [.part 0, .part 2]⟩,
    ⟨left, [.n left, .t .period, .n .identifier], .make .dot 0 [.part 0, .part 2]⟩]

def memberRules (v : Variant) : List Rule :=
  passes (.expr .member v) [.n (.expr .primary v), .n .functionExpr]
  ++ accessRules (.expr .member v)
  ++ [⟨.expr .member v, [.t .kwNew, .n (.expr .member .plain), .n .arguments],
      .make .newExpr 1 [.part 1, .list [2]]⟩]

def creationRules (v : Variant) : List Rule :=
  [⟨.expr .creation v, [.n (.expr .member v)], .pass 0⟩,
    ⟨.expr .creation v, [.t .kwNew, .n (.expr .creation .plain)],
      .make .newExpr 1 [.part 1, .list []]⟩]

def callRules (v : Variant) : List Rule :=
  [⟨.expr .call v, [.n (.expr .member v), .n .arguments], .make .call 0 [.part 0, .items 1]⟩,
    ⟨.expr .call v, [.n (.expr .call v), .n .arguments], .make .call 0 [.part 0, .items 1]⟩]
  ++ accessRules (.expr .call v)

/-- Increments and decrements after their operand, in one variant. -/
def updateRules (v : Variant) : List Rule :=
  [⟨.expr .update v, [.n (.expr .leftSide v)], .pass 0⟩,
    ⟨.expr .update v, [.n (.expr .leftSide v), .t .plusPlus], .operator .unaryAfter 1 [.part 0]⟩,
    ⟨.expr .update v, [.n (.expr .leftSide v), .t .minusMinus], .operator .unaryAfter 1 [.part 0]⟩]

/-- Expressions down from the unary operators. -/
def operandRules : List Rule :=
  memberRules .plain ++ memberRules .noBrace
  ++ creationRules .plain ++ creationRules .noBrace
  ++ callRules .plain ++ callRules .noBrace
  ++ [⟨.arguments, [.t .lparen, .t .rparen], .absent⟩,
    ⟨.arguments, [.t .lparen, .n .argumentList, .t .rparen], .pass 1⟩]
  ++ listOf .argumentList assignmentExpr (some .comma)
  ++ passes (.expr .leftSide .plain) [.n (.expr .creation .plain), .n (.expr .call .plain)]
  ++ passes (.expr .leftSide .noBrace) [.n (.expr .creation .noBrace), .n (.expr .call .noBrace)]
  ++ updateRules .plain ++ updateRules .noBrace
  ++ passes (.expr .unary .plain) [.n (.expr .update .plain), .n .unaryCommon]
  ++ passes (.expr .unary .noBrace) [.n (.expr .update .noBrace), .n .unaryCommon]
  ++ [TokenKind.kwDelete, .kwVoid, .kwTypeof, .plusPlus, .minusMinus, .plus, .minus, .bitNot,
      .bang].map fun op =>
    ⟨.unaryCommon, [.t op, .n (.expr .unary .plain)], .operator .unaryBefore 0 [.part 1]⟩

def relationalOps : List TokenKind := [.less, .greater, .lessEq, .greaterEq, .kwInstanceof]

def equalityOps : List TokenKind := [.equal, .notEqual, .same, .notSame]

/-- A level from the bitwise operators up in its three variants: both operands are of the level's own
variant. -/
def looseLevel (level below : Level) (op : TokenKind) : List Rule :=
  [Variant.plain, .noIn, .noBrace].flatMap fun v => operators level below v v v [op]

/-- Binary operators. A level that has no variant without `in` serves both; on the right of the
tighter operators the plain variant stands. -/
def binaryRules : List Rule :=
  operators .multiplicative .unary .plain .plain .plain [.times, .divide, .modulo]
  ++ operators .multiplicative .unary .noBrace .noBrace .plain [.times, .divide, .modulo]
  ++ operators .additive .multiplicative .plain .plain .plain [.plus, .minus]
  ++ operators .additive .multiplicative .noBrace .noBrace .plain [.plus, .minus]
  ++ operators .shift .additive .plain .plain .plain [.shiftLeft, .shiftRight, .shiftZero]
  ++ operators .shift .additive .noBrace .noBrace .plain [.shiftLeft, .shiftRight, .shiftZero]
  ++ operators .relational .shift .plain .plain .plain (relationalOps ++ [.kwIn])
  ++ operators .relational .shift .noIn .plain .plain relationalOps
  ++ operators .relational .shift .noBrace .noBrace .plain (relationalOps ++ [.kwIn])
  ++ operators .equality .relational .plain .plain .plain equalityOps
  ++ operators .equality .relational .noIn .noIn .plain equalityOps
  ++ operators .equality .relational .noBrace .noBrace .plain equalityOps
  ++ looseLevel .bitAnd .equality .bitAnd
  ++ looseLevel .bitXor .bitAnd .bitXor
  ++ looseLevel .bitOr .bitXor .bitOr
  ++ looseLevel .logicalAnd .bitOr .andThen
  ++ looseLevel .logicalOr .logicalAnd .orElse

/-- The conditional operator in one variant; its branches are of the variant `inner`. -/
def conditionalRules (v inner : Variant) : List Rule :=
  [⟨.expr .conditional v, [.n (.expr .logicalOr v)], .pass 0⟩,
    ⟨.expr .conditional v,
      [.n (.expr .logicalOr v), .t .question, .n (.expr .assignment inner), .t .colon,
        .n (.expr .assignment inner)],
      .make .conditional 0 [.part 0, .part 2, .part 4]⟩]

/-- Assignment in one variant; its left side is of the variant `target`, its right side of the
variant `inner`. -/
def assignmentRules (v target inner : Variant) : List Rule :=
  [⟨.expr .assignment v, [.n (.expr .conditional v)], .pass 0⟩,
    ⟨.expr .assignment v,
      [.n (.expr .leftSide target), .n .assignmentOperator, .n (.expr .assignment inner)],
      .operator .assign 1 [.part 0, .part 2]⟩]

/-- The comma in one variant; its right side is of the variant `inner`. -/
def commaRules (v inner : Variant) : List Rule :=
  [⟨.expr .comma v, [.n (.expr .assignment v)], .pass 0⟩,
    ⟨.expr .comma v, [.n (.expr .comma v), .t .comma, .n (.expr .assignment inner)],
      .make .comma 0 [.part 0, .part 2]⟩]

/-- Expressions from the conditional operator up. -/
def looseRules : List Rule :=
  conditionalRules .plain .plain ++ conditionalRules .noIn .noIn
  ++ conditionalRules .noBrace .plain
  ++ assignmentRules .plain .plain .plain ++ assignmentRules .noIn .plain .noIn
  ++ assignmentRules .noBrace .noBrace .plain
  ++ passes .assignmentOperator
    [.t .assign, .t .timesAssign, .t .divideAssign, .t .moduloAssign, .t .plusAssign,
      .t .minusAssign, .t .shiftLeftAssign, .t .shiftRightAssign, .t .shiftZeroAssign,
      .t .bitAndAssign, .t .bitXorAssign, .t .bitOrAssign]
  ++ commaRules .plain .plain ++ commaRules .noIn .noIn ++ commaRules .noBrace .plain

def varDeclRules (v : Variant) : List Rule :=
  [⟨.varDecl v, [.n .identifier], .make .varDecl 0 [.name 0, .nothing]⟩,
    ⟨.varDecl v, [.n .identifier, .n (.initializer v)], .make .varDecl 0 [.name 0, .part 1]⟩]

/-- Statements without statements inside them, and those with one. -/
def statementRules : List Rule :=
  [⟨.varStatement, [.t .kwVar, .n (.varDeclList .plain), .t .semi],
      .make .varStatement 1 [.items 1]⟩]
  ++ listOf (.varDeclList .plain) (.n (.varDecl .plain)) (some .comma)
  ++ listOf (.varDeclList .noIn) (.n (.varDecl .noIn)) (some .comma)
  ++ varDeclRules .plain ++ varDeclRules .noIn
  ++ [⟨.initializer .plain, [.t .assign, .n (.expr .assignment .plain)], .pass 1⟩,
    ⟨.initializer .noIn, [.t .assign, .n (.expr .assignment .noIn)], .pass 1⟩,
    ⟨.emptyStatement, [.t .semi], .slot (.leaf .emptyStmt 0)⟩,
    ⟨.exprStatement, [.n (.expr .comma .noBrace), .t .semi], .make .exprStmt 0 [.part 0]⟩,
    ⟨.ifStatement, [.t .kwIf, .t .lparen, expr, .t .rparen, .n .statement],
      .make .ifStmt 2 [.part 2, .part 4, .nothing]⟩,
    ⟨.ifStatement,
      [.t .kwIf, .t .lparen, expr, .t .rparen, .n .statement, .t .kwElse, .n .statement],
      .make .ifStmt 2 [.part 2, .part 4, .part 6]⟩]

def iterationRules : List Rule :=
  [⟨.iteration,
      [.t .kwDo, .n .statement, .t .kwWhile, .t .lparen, expr, .t .rparen, .t .semi],
      .make .doWhile 4 [.part 4, .part 1]⟩,
    ⟨.iteration, [.t .kwWhile, .t .lparen, expr, .t .rparen, .n .statement],
      .make .whileStmt 2 [.part 2, .part 4]⟩,
    ⟨.iteration,
      [.t .kwFor, .t .lparen, .n (.exprOpt .noIn), .t .semi, .n (.exprOpt .plain), .t .semi,
        .n (.exprOpt .plain), .t .rparen, .n .statement],
      .make .forStmt 2 [.part 2, .part 4, .part 6, .part 8]⟩,
    ⟨.iteration,
      [.t .kwFor, .t .lparen, .t .kwVar, .n (.varDeclList .noIn), .t .semi, .n (.exprOpt .plain),
        .t .semi, .n (.exprOpt .plain), .t .rparen, .n .statement],
      .make .forStmt 5 [.vars 3, .part 5, .part 7, .part 9]⟩,
    ⟨.iteration,
      [.t .kwFor, .t .lparen, .n (.expr .leftSide .plain), .t .kwIn, expr, .t .rparen,
        .n .statement],
      .make .forIn 2 [.part 2, .part 4, .part 6]⟩,
    ⟨.iteration,
      [.t .kwFor, .t .lparen, .t .kwVar, .n .identifier, .t .kwIn, expr, .t .rparen,
        .n .statement],
      .make .forIn 3 [.decl 3, .part 5, .part 7]⟩,
    ⟨.iteration,
      [.t .kwFor, .t .lparen, .t .kwVar, .n .identifier, .n (.initializer .noIn), .t .kwIn, expr,
        .t .rparen, .n .statement],
      .make .forIn 3 [.declInit 3 4, .part 6, .part 8]⟩]
  ++ passes (.exprOpt .plain) [.n .empty, expr]
  ++ passes (.exprOpt .noIn) [.n .empty, .n (.expr .comma .noIn)]

def jumpRules : List Rule :=
  [⟨.continueStatement, [.t .kwContinue, .t .semi], .make .continueStmt 0 [.nothing]⟩,
    ⟨.continueStatement, [.t .kwContinue, .n .identifier, .t .semi],
      .make .continueStmt 1 [.part 1]⟩,
    ⟨.breakStatement, [.t .kwBreak, .t .semi], .make .breakStmt 0 [.nothing]⟩,
    ⟨.breakStatement, [.t .kwBreak, .n .identifier, .t .semi], .make .breakStmt 1 [.part 1]⟩,
    ⟨.returnStatement, [.t .kwReturn, .t .semi], .make .returnStmt 0 [.nothing]⟩,
    ⟨.returnStatement, [.t .kwReturn, expr, .t .semi], .make .returnStmt 1 [.part 1]⟩]

def clauseRules : List Rule :=
  [⟨.withStatement, [.t .kwWith, .t .lparen, expr, .t .rparen, .n .statement],
      .make .withStmt 2 [.part 2, .part 4]⟩,
    ⟨.switchStatement, [.t .kwSwitch, .t .lparen, expr, .t .rparen, .n .caseBlock],
      .make .switchStmt 2 [.part 2, .items 4]⟩,
    ⟨.caseBlock, [.t .lbrace, .n .caseClausesOpt, .t .rbrace], .seq [.list [1], .nothing]⟩,
    ⟨.caseBlock,
      [.t .lbrace, .n .caseClausesOpt, .n .defaultClause, .n .caseClausesOpt, .t .rbrace],
      .seq [.list [1, 3], .part 2]⟩]
  ++ passes .caseClausesOpt [.n .empty, .n .caseClauses]
  ++ listOf .caseClauses (.n .caseClause) none
  ++ [⟨.caseClause, [.t .kwCase, expr, .t .colon, .n .sourceElements],
      .make .caseClause 1 [.part 1, .items 3]⟩,
    ⟨.defaultClause, [.t .kwDefault, .t .colon, .n .sourceElements],
      .make .defaultClause 2 [.items 2]⟩,
    ⟨.labelled, [.n .identifier, .t .colon, .n .statement], .make .label 0 [.part 0, .part 2]⟩,
    ⟨.throwStatement, [.t .kwThrow, expr, .t .semi], .make .throwStmt 1 [.part 1]⟩,
    ⟨.tryStatement, [.t .kwTry, .n .block, .n .catchClause],
      .make .tryStmt 1 [.part 1, .part 2, .nothing]⟩,
    ⟨.tryStatement, [.t .kwTry, .n .block, .n .finallyClause],
      .make .tryStmt 1 [.part 1, .nothing, .part 2]⟩,
    ⟨.tryStatement, [.t .kwTry, .n .block, .n .catchClause, .n .finallyClause],
      .make .tryStmt 1 [.part 1, .part 2, .part 3]⟩,
    ⟨.catchClause, [.t .kwCatch, .t .lparen, .n .identifier, .t .rparen, .n .block],
      .make .catchClause 2 [.name 2, .part 4]⟩,
    ⟨.finallyClause, [.t .kwFinally, .n .block], .make .finallyClause 1 [.part 1]⟩,
    ⟨.debuggerStatement, [.t .kwDebugger, .t .semi], .slot (.leaf .debugger 0)⟩]

def functionRules : List Rule :=
  [⟨.functionDecl,
      [.t .kwFunction, .n .identifier, .t .lparen, .t .rparen, .t .lbrace, .n .functionBody,
        .t .rbrace],
      .make (.function .declared) 1 [.name 1, .list [], .list [5]]⟩,
    ⟨.functionDecl,
      [.t .kwFunction, .n .identifier, .t .lparen, .n .parameters, .t .rparen, .t .lbrace,
        .n .functionBody, .t .rbrace],
      .make (.function .declared) 1 [.name 1, .names 3, .list [6]]⟩,
    ⟨.functionExpr,
      [.t .kwFunction, .t .lparen, .t .rparen, .t .lbrace, .n .functionBody, .t .rbrace],
      .make (.function .expression) 4 [.nothing, .list [], .list [4]]⟩,
    ⟨.functionExpr,
      [.t .kwFunction, .t .lparen, .n .parameters, .t .rparen, .t .lbrace, .n .functionBody,
        .t .rbrace],
      .make (.function .expression) 2 [.nothing, .names 2, .list [5]]⟩,
    ⟨.functionExpr,
      [.t .kwFunction, .n .identifier, .t .lparen, .t .rparen, .t .lbrace, .n .functionBody,
        .t .rbrace],
      .make (.function .expression) 1 [.name 1, .list [], .list [5]]⟩,
    ⟨.functionExpr,
      [.t .kwFunction, .n .identifier, .t .lparen, .n .parameters, .t .rparen, .t .lbrace,
        .n .functionBody, .t .rbrace],
      .make (.function .expression) 1 [.name 1, .names 3, .list [6]]⟩]
  ++ listOf .parameters (.n .identifier) (some .comma)
  ++ passes .functionBody [.n .sourceElements]

/-- The rules in groups. They are numbered through, from group to group. -/
def ruleGroups : List (List Rule) :=
  [programRules, literalRules, primaryRules, operandRules, binaryRules, looseRules, statementRules,
    iterationRules, jumpRules, clauseRules, functionRules]

/-- The rules, in the order of their numbers. -/
def rules : List Rule := ruleGroups.flatten

end Grammar

end JsMinify
