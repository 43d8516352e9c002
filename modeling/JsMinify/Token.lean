import JsMinify.Text.Quoted

/-!
# Tokens

A token has a kind, a text, a line and a position. Kinds carry two tables: the words that are
reserved, and the punctuators from the longest to the shortest, so that the first punctuator that
starts a text is the longest one. Three classes of kinds steer the lexer: those that may end an
operand, those after which a line break ends the statement, and those that the parser never sees.
-/

namespace JsMinify

/-- The kinds of tokens: punctuators, literals, names, words that are reserved, and the parts of a
text between tokens. -/
inductive TokenKind where
  | period | comma | semi | colon | plus | minus | times | divide | modulo | bitAnd | bitOr
  | bitXor | bitNot | question | bang | lparen | rparen | lbrace | rbrace | lbracket | rbracket
  | assign | equal | notEqual | same | notSame | less | greater | lessEq | greaterEq | orElse
  | andThen | plusPlus | minusMinus | shiftLeft | shiftRight | shiftZero | plusAssign
  | minusAssign | timesAssign | divideAssign | shiftLeftAssign | shiftRightAssign
  | shiftZeroAssign | bitAndAssign | moduloAssign | bitXorAssign | bitOrAssign
  | number | string | identifier | regex | getProp | setProp | lineComment | blockComment
  | lineEnd
  | kwBreak | kwCase | kwCatch | kwContinue | kwDebugger | kwDefault | kwDelete | kwDo | kwElse
  | kwFinally | kwFor | kwFunction | kwIf | kwIn | kwInstanceof | kwNew | kwReturn | kwSwitch
  | kwThis | kwThrow | kwTry | kwTypeof | kwVar | kwVoid | kwWhile | kwWith | kwNull | kwTrue
  | kwFalse | kwClass | kwConst | kwEnum | kwExport | kwExtends | kwImport | kwSuper
  deriving DecidableEq, Repr, Inhabited

namespace TokenKind

def name : TokenKind → String
  | .period => "PERIOD"
  | .comma => "COMMA"
  | .semi => "SEMI"
  | .colon => "COLON"
  | .plus => "PLUS"
  | .minus => "MINUS"
  | .times => "MULT"
  | .divide => "DIV"
  | .modulo => "MOD"
  | .bitAnd => "BAND"
  | .bitOr => "BOR"
  | .bitXor => "BXOR"
  | .bitNot => "BNOT"
  | .question => "CONDOP"
  | .bang => "NOT"
  | .lparen => "LPAREN"
  | .rparen => "RPAREN"
  | .lbrace => "LBRACE"
  | .rbrace => "RBRACE"
  | .lbracket => "LBRACKET"
  | .rbracket => "RBRACKET"
  | .assign => "EQ"
  | .equal => "EQEQ"
  | .notEqual => "NE"
  | .same => "STREQ"
  | .notSame => "STRNEQ"
  | .less => "LT"
  | .greater => "GT"
  | .lessEq => "LE"
  | .greaterEq => "GE"
  | .orElse => "OR"
  | .andThen => "AND"
  | .plusPlus => "PLUSPLUS"
  | .minusMinus => "MINUSMINUS"
  | .shiftLeft => "LSHIFT"
  | .shiftRight => "RSHIFT"
  | .shiftZero => "URSHIFT"
  | .plusAssign => "PLUSEQUAL"
  | .minusAssign => "MINUSEQUAL"
  | .timesAssign => "MULTEQUAL"
  | .divideAssign => "DIVEQUAL"
  | .shiftLeftAssign => "LSHIFTEQUAL"
  | .shiftRightAssign => "RSHIFTEQUAL"
  | .shiftZeroAssign => "URSHIFTEQUAL"
  | .bitAndAssign => "ANDEQUAL"
  | .moduloAssign => "MODEQUAL"
  | .bitXorAssign => "XOREQUAL"
  | .bitOrAssign => "OREQUAL"
  | .number => "NUMBER"
  | .string => "STRING"
  | .identifier => "ID"
  | .regex => "REGEX"
  | .getProp => "GETPROP"
  | .setProp => "SETPROP"
  | .lineComment => "LINE_COMMENT"
  | .blockComment => "BLOCK_COMMENT"
  | .lineEnd => "LINE_TERMINATOR"
  | .kwBreak => "BREAK"
  | .kwCase => "CASE"
  | .kwCatch => "CATCH"
  | .kwContinue => "CONTINUE"
  | .kwDebugger => "DEBUGGER"
  | .kwDefault => "DEFAULT"
  | .kwDelete => "DELETE"
  | .kwDo => "DO"
  | .kwElse => "ELSE"
  | .kwFinally => "FINALLY"
  | .kwFor => "FOR"
  | .kwFunction => "FUNCTION"
  | .kwIf => "IF"
  | .kwIn => "IN"
  | .kwInstanceof => "INSTANCEOF"
  | .kwNew => "NEW"
  | .kwReturn => "RETURN"
  | .kwSwitch => "SWITCH"
  | .kwThis => "THIS"
  | .kwThrow => "THROW"
  | .kwTry => "TRY"
  | .kwTypeof => "TYPEOF"
  | .kwVar => "VAR"
  | .kwVoid => "VOID"
  | .kwWhile => "WHILE"
  | .kwWith => "WITH"
  | .kwNull => "NULL"
  | .kwTrue => "TRUE"
  | .kwFalse => "FALSE"
  | .kwClass => "CLASS"
  | .kwConst => "CONST"
  | .kwEnum => "ENUM"
  | .kwExport => "EXPORT"
  | .kwExtends => "EXTENDS"
  | .kwImport => "IMPORT"
  | .kwSuper => "SUPER"

def reserved : List (String × TokenKind) :=
  [("break", .kwBreak), ("case", .kwCase), ("catch", .kwCatch), ("continue", .kwContinue),
   ("debugger", .kwDebugger), ("default", .kwDefault), ("delete", .kwDelete), ("do", .kwDo),
   ("else", .kwElse), ("finally", .kwFinally), ("for", .kwFor), ("function", .kwFunction),
   ("if", .kwIf), ("in", .kwIn), ("instanceof", .kwInstanceof), ("new", .kwNew),
   ("return", .kwReturn), ("switch", .kwSwitch), ("this", .kwThis), ("throw", .kwThrow),
   ("try", .kwTry), ("typeof", .kwTypeof), ("var", .kwVar), ("void", .kwVoid),
   ("while", .kwWhile), ("with", .kwWith), ("null", .kwNull), ("true", .kwTrue),
   ("false", .kwFalse), ("class", .kwClass), ("const", .kwConst), ("enum", .kwEnum),
   ("export", .kwExport), ("extends", .kwExtends), ("import", .kwImport), ("super", .kwSuper)]

/-- The punctuators, longer ones before shorter ones. -/
def punctuators : List (String × TokenKind) :=
  [(">>>=", .shiftZeroAssign), ("===", .same), ("!==", .notSame), (">>>", .shiftZero),
   ("<<=", .shiftLeftAssign), (">>=", .shiftRightAssign), ("==", .equal), ("!=", .notEqual),
   ("<=", .lessEq), (">=", .greaterEq), ("||", .orElse), ("&&", .andThen), ("++", .plusPlus),
   ("--", .minusMinus), ("<<", .shiftLeft), (">>", .shiftRight), ("+=", .plusAssign),
   ("-=", .minusAssign), ("*=", .timesAssign), ("/=", .divideAssign), ("&=", .bitAndAssign),
   ("%=", .moduloAssign), ("^=", .bitXorAssign), ("|=", .bitOrAssign), (".", .period),
   (",", .comma), (";", .semi), (":", .colon), ("+", .plus), ("-", .minus), ("*", .times),
   ("/", .divide), ("%", .modulo), ("&", .bitAnd), ("|", .bitOr), ("^", .bitXor), ("~", .bitNot),
   ("?", .question), ("!", .bang), ("(", .lparen), (")", .rparen), ("\x7b", .lbrace),
   ("\x7d", .rbrace), ("[", .lbracket), ("]", .rbracket), ("=", .assign), ("<", .less),
   (">", .greater)]

/-- The kind of a word: its own if the word is reserved, else that of names. -/
def ofWord (word : String) : TokenKind :=
  (reserved.lookup word).getD .identifier

/-- Kinds that can end an operand, so that a slash after them divides. -/
def endsOperand : TokenKind → Bool
  | .identifier | .number | .string | .regex | .kwTrue | .kwFalse | .kwNull | .kwThis
  | .plusPlus | .minusMinus | .rparen | .rbrace | .rbracket => true
  | _ => false

/-- Kinds that a line break turns into a whole statement. -/
def isRestricted : TokenKind → Bool
  | .kwBreak | .kwContinue | .kwReturn | .kwThrow => true
  | _ => false

/-- Kinds that stand between the tokens of a program. -/
def isTrivia : TokenKind → Bool
  | .lineEnd | .lineComment | .blockComment => true
  | _ => false

end TokenKind

/-- A piece of program text with its kind, its line (from 1) and its position (from 0), counted in
characters. -/
structure Token where
  kind : TokenKind
  text : String
  line : Nat
  pos : Nat
  deriving DecidableEq, Repr, Inhabited

/-- The number of line breaks in a text. -/
def lineBreaks (s : List Char) : Nat := s.count '\n'

namespace Token

def breaks (t : Token) : Nat := lineBreaks t.text.toList

def display (t : Token) : String :=
  "LexToken(" ++ t.kind.name ++ "," ++ Text.quoted t.text ++ "," ++ t.line.repr ++ ","
    ++ t.pos.repr ++ ")"

/-- A token that may be missing, as messages show it. -/
def display? : Option Token → String
  | some t => t.display
  | none => "None"

end Token

end JsMinify
