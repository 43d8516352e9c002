import JsMinify.Grammar

/-!
# The tables of the automaton

The LALR(1) automaton of the grammar, with every conflict resolved: a token is shifted rather than a
rule reduced, so that an `else` belongs to the nearest `if`, and of two rules the one listed first is
reduced, so that a named function at the start of a statement is a declaration. States are numbers. A row of the automaton names a list of shifts and, for each rule
that may be reduced, the tokens before which it is; rows share their lists.
-/

namespace JsMinify.Grammar

abbrev State := Nat

/-- What may follow: kinds of tokens, and perhaps the end of the text. -/
structure Lookahead where
  atEnd : Bool
  kinds : List TokenKind
  deriving DecidableEq, Repr

namespace Table

/-- The shifts of tokens that begin an operand other than an object, a function or a construction. -/
def primaryShifts : List (TokenKind × State) := [
  (.lparen, 14), (.lbracket, 13), (.number, 20), (.string, 26), (.identifier, 10), (.regex, 23),
  (.kwThis, 28), (.kwNull, 19), (.kwTrue, 30), (.kwFalse, 7)]

/-- The shifts of tokens that begin an expression, but for a brace and two words that lead elsewhere at the start of a
statement. -/
def operandShifts : List (TokenKind × State) := [
  (.plus, 21), (.minus, 15), (.bitNot, 1), (.bang, 18), (.plusPlus, 22), (.minusMinus, 16), (.kwDelete, 5),
  (.kwTypeof, 32), (.kwVoid, 34)] ++ primaryShifts

/-- The shifts of tokens that begin an expression. -/
def expressionShifts : List (TokenKind × State) :=
  [(.lbrace, 90), (.kwFunction, 89), (.kwNew, 91)] ++ operandShifts

/-- The shifts of the operators of assignments. -/
def assignmentShifts : List (TokenKind × State) := [
  (.assign, 174), (.plusAssign, 181), (.minusAssign, 176), (.timesAssign, 179), (.divideAssign, 173),
  (.shiftLeftAssign, 175), (.shiftRightAssign, 183), (.shiftZeroAssign, 184), (.bitAndAssign, 172),
  (.moduloAssign, 178), (.bitXorAssign, 185), (.bitOrAssign, 180)]

/-- Lists of kinds of tokens to shift, with the states they lead to. -/
def shiftLists : Array (List (TokenKind × State)) := #[
  [],
  .append [(.semi, 25), (.lbrace, 12), (.kwBreak, 2), (.kwContinue, 3), (.kwDebugger, 4), (.kwDo, 6), (.kwFor, 8),
    (.kwFunction, 9), (.kwIf, 11), (.kwNew, 17), (.kwReturn, 24), (.kwSwitch, 27), (.kwThrow, 29), (.kwTry,
    31), (.kwVar, 33), (.kwWhile, 35), (.kwWith, 36)] operandShifts,
  expressionShifts, [(.semi, 104), (.identifier, 10)], [(.semi, 106), (.identifier, 10)], [(.semi, 108)],
  [(.lparen, 112)], [(.lparen, 113), (.identifier, 10)], [(.lparen, 115)], [(.comma, 117)],
  (.lbrace, 90) :: (.kwFunction, 89) :: (.kwNew, 91) :: primaryShifts,
  (.semi, 144) :: expressionShifts, [(.lparen, 146)], [(.lbrace, 12)], [(.identifier, 10)],
  [(.lparen, 154)], [(.lparen, 155)], [(.plus, 157), (.minus, 156)], [(.bitAnd, 158)], [(.bitOr, 159)],
  [(.bitXor, 160)], [(.period, 163), (.lparen, 162), (.lbracket, 161)],
  [(.equal, 165), (.notEqual, 166), (.same, 167), (.notSame, 168)],
  [(.comma, 169), (.semi, 170)], [(.colon, 171)], (.plusPlus, 182) :: (.minusMinus, 177) :: assignmentShifts,
  [(.andThen, 187)], [(.question, 188), (.orElse, 189)], [(.period, 191), (.lparen, 162), (.lbracket, 190)],
  [(.times, 195), (.divide, 193), (.modulo, 194)],
  [(.less, 201), (.greater, 197), (.lessEq, 200), (.greaterEq, 196), (.kwIn, 198), (.kwInstanceof, 199)],
  [(.shiftLeft, 202), (.shiftRight, 203), (.shiftZero, 204)],
  [(.rbrace, 208), (.number, 20), (.string, 26), (.identifier, 10), (.getProp, 207), (.setProp, 209)],
  [(.period, 219), (.lparen, 162), (.lbracket, 218)], [(.plusPlus, 222), (.minusMinus, 221)],
  [(.period, 224), (.lparen, 162), (.lbracket, 223)], [(.semi, 226)], [(.semi, 227)], [(.kwWhile, 228)],
  (.kwVar, 229) :: expressionShifts, [(.rparen, 244), (.identifier, 10)], [(.lparen, 247)],
  [(.rbrace, 249)], [(.comma, 250), (.rbracket, 251)], [(.comma, 252)],
  (.rbracket, 253) :: expressionShifts, [(.plus, 256), (.minus, 255)], [(.bitAnd, 257)], [(.bitOr, 258)],
  [(.bitXor, 259)],
  [(.equal, 260), (.notEqual, 261), (.same, 262), (.notSame, 263)],
  [(.comma, 264), (.rparen, 265)], (.plusPlus, 222) :: (.minusMinus, 221) :: assignmentShifts,
  [(.andThen, 267)], [(.question, 268), (.orElse, 269)], [(.times, 272), (.divide, 270), (.modulo, 271)],
  [(.less, 278), (.greater, 274), (.lessEq, 277), (.greaterEq, 273), (.kwIn, 275), (.kwInstanceof, 276)],
  [(.shiftLeft, 279), (.shiftRight, 280), (.shiftZero, 281)], [(.comma, 264), (.semi, 283)],
  [(.comma, 264), (.semi, 285)], [(.kwCatch, 286), (.kwFinally, 287)], [(.assign, 290)],
  [(.comma, 292), (.semi, 293)], (.kwFunction, 89) :: (.kwNew, 17) :: operandShifts,
  (.rparen, 303) :: expressionShifts, [(.lparen, 331)], [(.number, 20), (.string, 26), (.identifier, 10)],
  [(.comma, 334), (.rbrace, 335)], [(.colon, 336)], [(.lparen, 342)], [(.bitAnd, 346)], [(.bitOr, 347)],
  [(.bitXor, 348)],
  [(.equal, 349), (.notEqual, 350), (.same, 351), (.notSame, 352)],
  [(.comma, 353)], [(.semi, 354)],
  (.plusPlus, 222) :: (.minusMinus, 221) :: (.kwIn, 355) :: assignmentShifts,
  [(.andThen, 357)], [(.question, 358), (.orElse, 359)],
  [(.less, 364), (.greater, 361), (.lessEq, 363), (.greaterEq, 360), (.kwInstanceof, 362)],
  [(.lbrace, 365)], [(.comma, 366), (.rparen, 367)], [(.rparen, 368), (.identifier, 10)],
  [(.comma, 264), (.rparen, 370)], [(.comma, 264), (.rparen, 398)], [(.lparen, 399)], [(.kwFinally, 287)],
  [(.comma, 264), (.rparen, 404)], [(.comma, 264), (.rparen, 405)], [(.plusPlus, 182), (.minusMinus, 177)],
  [(.comma, 264), (.rbracket, 406)], [(.comma, 407), (.rparen, 408)], [(.colon, 409)],
  [(.comma, 264), (.rbracket, 410)], [(.rparen, 411), (.identifier, 10)], [(.lparen, 413)], [(.lparen, 414)],
  [(.rbrace, 415), (.number, 20), (.string, 26), (.identifier, 10), (.getProp, 207), (.setProp, 209)],
  [(.comma, 264), (.rbracket, 418)], [(.comma, 264), (.rbracket, 419)], [(.assign, 421), (.kwIn, 422)],
  [(.comma, 424), (.semi, 425)], [(.lbrace, 451)], [(.lbrace, 452)], [(.comma, 366), (.rparen, 453)],
  (.rbracket, 455) :: expressionShifts, [(.colon, 457)], [(.lbrace, 458)], [(.lbrace, 465)],
  [(.comma, 366), (.rparen, 466)], [(.rparen, 467)], [(.comma, 264), (.rparen, 469)], [(.kwIn, 472)],
  [(.comma, 264)], [(.semi, 476)], [(.comma, 264), (.rparen, 477)], [(.colon, 478)], [(.rbrace, 479)],
  [(.lbrace, 482)], [(.kwElse, 483)], [(.kwCase, 485)], [(.rparen, 490)], [(.lbrace, 492)], [(.lbrace, 493)],
  [(.comma, 366), (.rparen, 494)], [(.semi, 495)], [(.comma, 264), (.rparen, 496)], [(.assign, 421)],
  [(.semi, 499)], [(.rbrace, 503)], [(.rbrace, 504)], [(.rbrace, 510), (.kwDefault, 509)], [(.rbrace, 513)],
  [(.lbrace, 516)], [(.comma, 264), (.rparen, 518)], [(.rparen, 520)], [(.rbrace, 521)],
  [(.comma, 264), (.colon, 522)], [(.colon, 523)], [(.rbrace, 525)], [(.rbrace, 526)], [(.rparen, 529)],
  [(.rbrace, 533)], [(.rbrace, 534)]]

/-- The operators behind an operand, level by level from those that bind least. The word `in`, which some expressions
must not have, is left out. -/
def operatorLevels : List (List TokenKind) := [
  [.question, .orElse], [.andThen], [.bitOr], [.bitXor], [.bitAnd], [.equal, .notEqual, .same, .notSame],
  [.less, .greater, .lessEq, .greaterEq, .kwInstanceof], [.shiftLeft, .shiftRight, .shiftZero],
  [.plus, .minus], [.times, .divide, .modulo],
  [.assign, .plusAssign, .minusAssign, .timesAssign, .divideAssign, .shiftLeftAssign, .shiftRightAssign,
    .shiftZeroAssign, .bitAndAssign, .moduloAssign, .bitXorAssign, .bitOrAssign, .plusPlus, .minusMinus],
  [.period, .lparen, .lbracket]]

/-- The operators of the first levels. -/
def operators (levels : Nat) : List TokenKind := (operatorLevels.take levels).flatten

/-- The tokens that may stand behind an expression and are no part of one. -/
def closers : List TokenKind := [.comma, .semi, .colon, .rparen, .rbrace, .rbracket]

/-- The tokens that begin an expression. -/
def expressionStarts : List TokenKind := expressionShifts.map Prod.fst

/-- The tokens that begin a statement. -/
def statementStarts : List TokenKind := (shiftLists.getD 1 []).map Prod.fst

/-- Sets of tokens before which a rule is reduced. -/
def lookaheads : Array Lookahead := #[
  ⟨true, []⟩, ⟨false, .append closers (.kwIn :: operators 12)⟩, ⟨false, [.rbrace]⟩,
  ⟨false, .rbracket :: expressionStarts⟩, ⟨true, .rbrace :: .kwCase :: .kwDefault :: .kwElse :: statementStarts⟩,
  ⟨false, .comma :: .semi :: .kwIn :: operators 8⟩, ⟨false, [.comma, .semi]⟩, ⟨false, .comma :: .semi :: operators 4⟩,
  ⟨false, .comma :: .semi :: operators 2⟩, ⟨false, .comma :: .semi :: operators 3⟩,
  ⟨false, .comma :: .semi :: .kwIn :: operators 11⟩, ⟨true, [.rbrace, .kwCase, .kwDefault]⟩,
  ⟨false, .comma :: .semi :: operators 5⟩, ⟨true, .rbrace :: .kwCase :: .kwDefault :: statementStarts⟩,
  ⟨false, .comma :: .semi :: .kwIn :: operators 12⟩, ⟨false, .comma :: .semi :: .kwIn :: operators 10⟩,
  ⟨false, .comma :: .semi :: operators 1⟩, ⟨false, .comma :: .semi :: .kwIn :: operators 9⟩,
  ⟨false, .comma :: .semi :: operators 6⟩, ⟨false, .comma :: .semi :: .kwIn :: operators 7⟩,
  ⟨false, .append closers (.kwIn :: operators 11)⟩, ⟨false, .append closers (.kwIn :: operators 10)⟩,
  ⟨false, [.semi]⟩, ⟨false, .comma :: .rbracket :: expressionStarts⟩, ⟨false, .append closers (.kwIn :: operators 8)⟩,
  ⟨false, [.comma, .semi, .colon, .rparen, .rbracket]⟩, ⟨false, .append closers (operators 4)⟩,
  ⟨false, .append closers (operators 2)⟩, ⟨false, .append closers (operators 3)⟩, ⟨false, closers⟩,
  ⟨false, .append closers (operators 5)⟩, ⟨false, .append closers (operators 1)⟩,
  ⟨false, .append closers (.kwIn :: operators 9)⟩, ⟨false, .append closers (operators 6)⟩,
  ⟨false, .append closers (.kwIn :: operators 7)⟩, ⟨false, expressionStarts⟩, ⟨false, [.colon, .lparen]⟩,
  ⟨false, [.comma, .rbrace]⟩, ⟨false, .comma :: .semi :: .colon :: .kwIn :: operators 4⟩,
  ⟨false, .comma :: .semi :: .colon :: .kwIn :: operators 2⟩,
  ⟨false, .comma :: .semi :: .colon :: .kwIn :: operators 3⟩, ⟨false, [.comma, .semi, .colon, .kwIn]⟩,
  ⟨false, .comma :: .semi :: .colon :: .kwIn :: operators 5⟩, ⟨false, .comma :: .semi :: operators 10⟩,
  ⟨false, .comma :: .semi :: .colon :: .kwIn :: operators 1⟩,
  ⟨false, .comma :: .semi :: .colon :: .kwIn :: operators 6⟩,
  ⟨false, .comma :: .semi :: .colon :: .kwIn :: operators 7⟩, ⟨false, [.comma, .rparen]⟩,
  ⟨true, .rbrace :: .kwCase :: .kwCatch :: .kwDefault :: .kwElse :: .kwFinally :: statementStarts⟩,
  ⟨false, [.comma, .rbracket]⟩, ⟨false, .comma :: .semi :: .colon :: operators 6⟩,
  ⟨false, .comma :: .semi :: .colon :: .kwIn :: operators 10⟩, ⟨false, [.semi, .rparen]⟩,
  ⟨false, [.rbrace, .kwDefault]⟩, ⟨false, [.comma, .semi, .kwIn]⟩, ⟨false, [.rparen]⟩,
  ⟨false, [.rbrace, .kwCase, .kwDefault]⟩,
  ⟨false, .append [.period, .comma, .times, .divide, .modulo, .assign, .plusAssign, .minusAssign, .timesAssign,
    .divideAssign, .shiftLeftAssign, .shiftRightAssign, .shiftZeroAssign, .bitAndAssign, .moduloAssign,
    .bitXorAssign, .bitOrAssign, .kwIn] (operators 8)⟩,
  ⟨true, .rbrace :: .kwCase :: .kwDefault :: .kwElse :: .kwFinally :: statementStarts⟩, ⟨false, [.rbrace, .kwCase]⟩]

/-- A row without reductions. -/
def go (shifts : Nat) : Nat × List (Nat × Nat) := (shifts, [])

/-- A row with one reduction. -/
def both (shifts lookahead rule : Nat) : Nat × List (Nat × Nat) := (shifts, [(lookahead, rule)])

/-- A row with one reduction only. -/
def close (lookahead rule : Nat) : Nat × List (Nat × Nat) := both 0 lookahead rule

/-- For each state the number of its shifts in `shiftLists`, and its reductions: a number in
`lookaheads` and the number of a rule. The states stand in blocks of sixteen. -/
def rows : List (List (Nat × List (Nat × Nat))) := [
  [both 1 0 0, go 2, go 3, go 4, go 5, go 2, go 1, close 1 31, go 6, go 7, close 1 36, go 8, both 1 2 0, both 9 3 0,
    go 2, go 2],
  [go 2, go 10, go 2, close 1 32, close 1 33, go 2, go 2, close 1 35, go 11, close 4 241, close 1 34, go 12,
    close 1 40, go 2, close 1 30, go 13],
  [go 2, go 14, go 2, go 15, go 16, both 17 5 131, close 1 42, close 6 228, both 18 7 180, both 19 8 192,
    both 20 9 186, close 4 8, close 1 26, close 4 15, both 21 10 93, close 6 210],
  [close 4 14, close 4 22, close 11 2, close 4 10, both 22 12 174, go 23, close 4 11, close 13 7, close 14 70,
    both 24 14 39, close 4 12, close 4 13, close 4 19, both 25 15 97, close 1 41, both 26 16 198],
  [both 27 6 204, both 28 10 76, both 29 17 124, close 10 92, close 1 25, close 1 27, close 15 102, close 14 69,
    go 0, close 1 29, both 30 18 165, close 4 16, both 31 19 148, close 13 4, both 1 11 3, close 0 1],
  [close 13 6, close 1 28, close 4 18, close 4 20, close 4 21, close 15 103, close 15 117, close 4 9, close 4 17,
    go 7, go 32, go 10, both 33 20 91, close 1 65, close 1 39, both 34 21 94],
  [both 35 20 74, close 20 90, close 1 38, close 21 100, close 1 64, close 1 37, close 21 111, close 21 101,
    close 4 258, go 36, close 4 256, go 37, close 4 279, close 21 104, close 4 23, go 38],
  [both 39 22 0, go 40, go 41, go 2, go 42, close 23 51, go 43, both 44 3 50, go 45, close 3 49, both 46 24 127,
    close 25 224, both 47 26 176, both 48 27 188, both 49 28 182, close 29 206],
  [both 50 30 170, go 51, both 52 21 94, both 53 31 194, both 54 29 200, both 55 32 121, both 56 33 155,
    both 57 34 135, close 21 113, close 21 110, close 21 108, both 35 10 74, close 10 77, close 21 112, close 21 109,
    close 21 107],
  [close 4 260, go 58, go 2, go 59, go 60, close 21 106, both 61 6 235, close 6 231, go 62, close 21 105, go 2, go 2,
    go 2, go 2, go 63, go 63],
  [go 63, go 2, go 64, go 14, close 14 83, go 2, go 2, go 2, go 2, go 2, close 4 242, go 1, close 35 221,
    close 35 214, close 35 212, close 35 218],
  [close 35 217, close 15 99, close 35 215, close 35 213, close 35 223, close 35 216, close 15 98, close 35 219,
    close 35 220, close 35 222, go 2, go 63, go 2, go 63, go 2, go 14],
  [close 14 82, go 2, go 2, go 2, go 2, go 2, go 2, go 2, go 2, go 2, go 2, go 2, go 2, close 13 5, go 65, go 66],
  [close 1 53, go 66, close 36 61, close 36 63, close 37 56, go 67, go 68, close 36 62, both 35 20 74, close 20 75,
    go 2, go 14, close 1 79, close 21 96, close 21 95, go 2],
  [go 14, close 1 78, close 4 259, close 4 257, go 69, go 14, close 6 226, both 70 38 178, both 71 39 190,
    both 72 40 184, close 41 208, close 22 254, both 73 42 172, both 74 22 255, go 75, both 76 43 94],
  [both 77 44 196, both 78 41 202, both 79 45 160, both 57 46 142, go 80, go 81, close 47 286, go 82, go 83,
    close 48 24, both 9 3 0, close 1 45, close 23 52, close 1 44, close 49 47, go 2],
  [go 2, go 2, go 2, go 2, go 2, go 2, go 2, go 2, go 2, close 1 43, go 2, go 2, go 2, go 2, go 2, go 2],
  [go 2, go 2, go 2, go 2, go 2, go 2, go 2, go 2, go 2, go 2, close 14 73, close 4 261, go 84, close 4 273, go 85,
    go 13],
  [both 86 4 274, close 4 275, go 2, close 6 236, go 14, close 4 230, go 87, go 88, both 55 17 126, both 55 17 125,
    both 22 12 175, both 89 15 97, both 20 9 187, both 18 7 181, go 90, close 1 86],
  [go 91, close 47 88, close 14 85, both 56 18 166, both 56 18 167, both 56 18 168, both 56 18 169, close 6 229,
    close 4 272, close 6 211, both 19 8 193, go 92, both 26 16 199, go 93, close 14 72, close 15 119],
  [close 15 120, close 15 118, both 57 19 152, both 57 19 150, both 57 19 154, both 57 19 153, both 57 19 151,
    both 57 19 149, both 46 5 132, both 46 5 133, both 46 5 134, go 94, go 95, go 96, go 97, close 1 54],
  [go 2, close 1 68, go 98, close 1 81, go 99, close 1 67, go 2, both 100 6 237, go 101, close 6 233, go 2, go 2,
    go 2, go 2, go 2, go 2],
  [go 2, go 2, both 2 22 0, go 2, go 2, go 2, go 2, go 2, go 2, go 2, go 2, go 2, go 2, both 1 2 0, go 14, go 102],
  [go 103, go 104, go 1, go 105, both 55 32 123, both 55 32 122, both 50 30 171, both 49 28 183, both 47 26 177,
    both 56 33 156, both 56 33 157, both 56 33 158, both 56 33 159, close 25 225, close 29 207, both 48 27 189],
  [go 106, both 53 31 195, close 21 115, close 21 116, close 21 114, both 57 34 139, both 57 34 137, both 57 34 141,
    both 57 34 140, both 57 34 138, both 57 34 136, both 46 24 128, both 46 24 129, both 46 24 130, go 107, go 14],
  [close 4 278, close 4 276, close 6 239, close 6 232, go 1, go 1, close 14 84, go 2, close 1 87, go 2, close 14 71,
    go 108, go 109, go 110, go 14, close 1 55],
  [close 37 57, close 37 58, close 1 80, close 1 66, go 111, go 2, go 2, both 112 6 238, go 14, both 2 22 0,
    both 73 42 173, both 72 40 185, both 70 38 179, both 56 50 161, both 56 50 162, both 56 50 163],
  [both 56 50 164, close 6 227, both 52 51 94, close 52 252, both 113 52 253, go 114, go 115, close 41 209,
    both 71 39 191, go 116, both 77 44 197, both 57 46 146, both 57 46 144, both 57 46 147, both 57 46 145,
    both 57 46 143],
  [go 117, close 2 288, close 47 287, both 1 2 0, both 1 2 0, go 118, both 119 13 243, close 1 46, close 49 48, go 2,
    both 120 53 0, close 4 263, go 121, close 4 246, close 4 262, close 47 89],
  [close 6 205, both 1 2 0, go 122, go 123, go 124, go 125, close 54 240, go 126, go 2, both 127 6 237, close 6 234,
    go 128, both 2 55 0, go 1, go 2, close 1 282],
  [go 129, go 130, both 1 2 0, go 1, close 29 201, go 2, close 56 268, both 120 53 267, go 131, close 53 266, go 13,
    go 132, both 1 2 0, both 1 2 0, go 133, close 4 245],
  [go 1, go 134, close 6 238, both 2 55 0, go 135, close 4 249, close 41 203, close 1 283,
    (0, [(4, 280), (57, 284)]), go 136, close 4 244, go 137, close 56 269, go 138, close 4 264, both 120 2 0],
  [close 58 277, close 1 284, go 139, go 140, both 1 2 0, close 4 250, go 1, go 141, go 1,
    (0, [(4, 281), (57, 285)]), both 1 56 0, both 1 59 0, go 142, close 1 285, close 37 59, go 143],
  [close 4 251, go 1, close 4 247, close 56 270, close 59 271, close 4 265, close 37 60, close 4 248]]

def row (s : State) : Nat × List (Nat × Nat) := (rows.getD (s / 16) []).getD (s % 16) (0, [])

/-- The state that leads to acceptance at the end of the text. -/
def acceptState : State := 72

/-- States that a statement may begin in. -/
def statementStates : List State :=
  [0, 6, 12, 78, 171, 365, 370, 404, 405, 451, 452, 465, 477, 482, 483, 492, 493, 496, 516, 518, 520, 522, 523, 529]

/-- States behind an operator of a statement that begins with an expression. -/
def operandStates : List State := [158, 159, 160, 187, 189]

/-- States before an expression that no brace may begin. -/
def bracelessStates : List State := operandStates ++ statementStates

/-- From some states one goes to the same state. -/
def alike (p : State) (qs : List State) : List (State × State) := qs.map (·, p)

/-- From states with successive numbers one goes to states with successive numbers. -/
def inStep (q p count : Nat) : List (State × State) := (List.range count).map fun i => (q + i, p + i)

/-- The state to go to when a nonterminal has been recognised: a usual one, and exceptions by the state
to go from. -/
def gotos : Nonterminal → State × List (State × State)
  | .empty =>
    (50, [(13, 121), (112, 235), (250, 121), (458, 489), (511, 489)] ++ alike 435 [354, 425, 476, 499])
  | .program => (72, [])
  | .sourceElements => (449, [(0, 79), (12, 116), (522, 531), (523, 532)])
  | .sourceElementList => (78, [])
  | .sourceElement => (77, [(78, 205)])
  | .statement =>
    (80, [(6, 111), (171, 312), (370, 454), (404, 461), (405, 462), (477, 501), (483, 506), (496, 517), (518,
      528), (520, 530), (529, 535)])
  | .functionDecl => (55, alike 110 [6, 171, 370, 404, 405, 477, 483, 496, 518, 520, 529])
  | .block => (43, [(31, 148), (287, 400), (490, 512)])
  | .varStatement => (87, [])
  | .emptyStatement => (51, [])
  | .exprStatement => (54, [])
  | .ifStatement => (58, [])
  | .iteration => (59, [])
  | .continueStatement => (48, [])
  | .breakStatement => (45, [])
  | .returnStatement => (75, [])
  | .withStatement => (88, [])
  | .switchStatement => (82, [])
  | .labelled => (60, [])
  | .throwStatement => (83, [])
  | .tryStatement => (84, [])
  | .debuggerStatement => (49, [])
  | .literal => (62, [])
  | .nullLiteral => (68, [])
  | .booleanLiteral => (44, [])
  | .numericLiteral => (69, alike 211 [90, 207, 209, 334])
  | .stringLiteral => (81, alike 215 [90, 207, 209, 334])
  | .regexLiteral => (73, [])
  | .identifier =>
    (94, [(2, 105), (3, 107), (9, 114), (33, 150), (89, 206), (163, 306), (191, 318), (219, 339), (224, 341),
      (229, 343), (292, 150), (366, 450), (399, 460), (424, 473)] ++ alike 57 statementStates
      ++ alike 210 [90, 207, 209, 334] ++ alike 246 [113, 247, 331, 414])
  | .expr .primary .plain => (100, [])
  | .expr .primary .noBrace => (101, alike 71 bracelessStates)
  | .objectLiteral => (98, [])
  | .arrayLiteral => (38, [])
  | .expr .comma .plain =>
    (436, [(14, 129), (24, 145), (29, 147), (115, 248), (146, 284), (154, 294), (155, 295), (161, 302), (190,
      317), (218, 338), (223, 340), (342, 420), (355, 438), (422, 471), (472, 497), (485, 507)])
  | .elisionOpt => (120, [(250, 371)])
  | .elementList => (118, [])
  | .expr .assignment .plain =>
    (123, [(120, 254), (162, 305), (169, 311), (186, 313), (188, 315), (264, 381), (266, 382), (268, 384),
      (290, 402), (336, 417), (371, 456), (407, 463), (409, 464), (457, 484)])
  | .elision => (119, [])
  | .propertyList => (213, [])
  | .property => (212, [(334, 416)])
  | .propertyName => (214, [(207, 332), (209, 333)])
  | .functionBody =>
    (448, [(451, 480), (452, 481), (465, 491), (482, 505), (492, 514), (493, 515), (516, 527)])
  | .parameters => (245, [(247, 369), (331, 412), (414, 468)])
  | .expr .member .plain => (96, [(17, 139), (91, 216)])
  | .functionExpr => (93, alike 56 bracelessStates)
  | .arguments => (164, [(65, 192), (92, 220), (96, 225), (139, 282), (216, 337)])
  | .expr .member .noBrace => (65, [])
  | .expr .creation .plain => (97, [(17, 140), (91, 217)])
  | .expr .creation .noBrace => (67, [])
  | .expr .call .plain => (92, [])
  | .expr .call .noBrace => (46, [])
  | .argumentList => (304, [])
  | .expr .leftSide .plain =>
    (95, [(112, 239)] ++ alike 130 [14, 24, 29, 115, 120, 146, 154, 155, 161, 162, 169, 186, 188, 190, 218,
      223, 264, 266, 268, 290, 336, 342, 354, 355, 371, 407, 409, 422, 425, 457, 472, 476, 485, 499]
      ++ alike 434 [353, 356, 358, 421, 478])
  | .expr .leftSide .noBrace => (61, alike 299 operandStates)
  | .expr .update .plain => (99, [])
  | .expr .update .noBrace => (70, [])
  | .expr .unary .plain =>
    (136, [(1, 102), (5, 109), (15, 137), (16, 138), (18, 141), (21, 142), (22, 143), (32, 149), (34, 153)]
      ++ inStep 193 319 3 ++ inStep 270 386 3)
  | .unaryCommon => (103, alike 85 bracelessStates)
  | .expr .unary .noBrace => (86, [])
  | .expr .multiplicative .plain => (133, [(156, 296), (157, 297), (255, 372), (256, 373)])
  | .expr .multiplicative .noBrace => (66, [])
  | .expr .additive .plain => (122, inStep 202 328 3 ++ inStep 279 395 3)
  | .expr .additive .noBrace => (37, [])
  | .expr .shift .plain =>
    (135, alike 243 [112, 346, 347, 348, 353, 356, 357, 358, 359, 421, 478] ++ inStep 196 322 6
      ++ inStep 273 389 6 ++ inStep 360 443 5)
  | .expr .shift .noBrace => (76, [])
  | .expr .relational .plain => (134, inStep 165 307 4 ++ inStep 260 377 4 ++ inStep 349 429 4)
  | .expr .relational .noIn => (242, [])
  | .expr .relational .noBrace => (74, [])
  | .expr .equality .plain => (128, [(257, 374)])
  | .expr .equality .noIn => (236, [(346, 426)])
  | .expr .equality .noBrace => (52, [(158, 298)])
  | .expr .bitAnd .plain => (124, [(259, 376)])
  | .expr .bitAnd .noIn => (231, [(348, 428)])
  | .expr .bitAnd .noBrace => (40, [(160, 301)])
  | .expr .bitXor .plain => (126, [(258, 375)])
  | .expr .bitXor .noIn => (233, [(347, 427)])
  | .expr .bitXor .noBrace => (42, [(159, 300)])
  | .expr .bitOr .plain => (125, [(267, 383)])
  | .expr .bitOr .noIn => (232, [(357, 440)])
  | .expr .bitOr .noBrace => (41, [(187, 314)])
  | .expr .logicalAnd .plain => (131, [(269, 385)])
  | .expr .logicalAnd .noIn => (240, [(359, 442)])
  | .expr .logicalAnd .noBrace => (63, [(189, 316)])
  | .expr .logicalOr .plain => (132, [])
  | .expr .logicalOr .noIn => (241, [])
  | .expr .logicalOr .noBrace => (64, [])
  | .expr .conditional .plain => (127, [])
  | .expr .conditional .noIn => (234, [])
  | .expr .assignment .noIn => (230, [(353, 433), (356, 439), (358, 441), (421, 470), (478, 502)])
  | .expr .conditional .noBrace => (47, [])
  | .assignmentOperator => (356, [(61, 186), (130, 266)])
  | .expr .assignment .noBrace => (39, [])
  | .expr .comma .noIn => (237, [])
  | .expr .comma .noBrace => (53, [])
  | .varDeclList .plain => (152, [])
  | .varDecl .plain => (151, [(292, 403)])
  | .varDeclList .noIn => (344, [])
  | .varDecl .noIn => (345, [(424, 474)])
  | .initializer .plain => (291, [])
  | .initializer .noIn => (423, [(473, 498)])
  | .exprOpt .noIn => (238, [])
  | .exprOpt .plain => (437, [(425, 475), (476, 500), (499, 519)])
  | .caseBlock => (459, [])
  | .caseClausesOpt => (488, [(511, 524)])
  | .defaultClause => (511, [])
  | .caseClauses => (487, [])
  | .caseClause => (486, [(487, 508)])
  | .catchClause => (288, [])
  | .finallyClause => (289, [(288, 401)])
  | _ => (0, [])

/-- The state to go to from a state when a nonterminal has been recognised there. -/
@[irreducible] def goto (s : State) (A : Nonterminal) : State :=
  ((gotos A).2.lookup s).getD (gotos A).1

end Table

end JsMinify.Grammar
