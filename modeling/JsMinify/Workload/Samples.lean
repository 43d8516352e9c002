/-!
# Sample programs

Texts for the workloads. `tour` and `corners` together use every construct of the language, among
them statements without their semicolons. `snippets` are small programs, every second of which has
an error. Braces are written by their codes.
-/

namespace JsMinify.Samples

def lines (ls : List String) : String := String.join (ls.map (· ++ "\n"))

/-- Tokens of most kinds, up to a regular expression. -/
def tokens : String := lines [
  "// numbers, strings and signs",
  "var count = 0x1F,",
  "    ratio = .5e-3;",
  "/* a comment",
  "   on two lines */",
  "name +=",
  "    'text' +",
  "    \"text\";",
  "",
  "count--;",
  "",
  "/ab+c/gi"]

/-- Most constructs, once or a few times each. -/
def tour : String := lines [
  "",
  "// line comment",
  "/* block",
  "   comment */",
  "var alpha = 1, beta, gamma = \"hello\\nworld\", delta = 'single', eps = null;",
  "var hexx = 0xFF, oct = 0755, flt = 3.14e-2, flt2 = .5, flt3 = 12.;",
  "var rex = /ab[c-z]\\\\d+/gi;",
  "var bools = [true, false, null, this];",
  "var arr = [1, 2, , , 3, [4, 5], , ];",
  "var arr2 = [,,];",
  "var arr3 = [];",
  "var arr4 = [1];",
  "var obj = \x7b",
  "    key: 1,",
  "    \"str\": 2,",
  "    3: \"num\",",
  "    nested: \x7b inner: [1, 2] \x7d,",
  "    get thing() \x7b return this._x; \x7d,",
  "    set thing(v) \x7b this._x = v; return; \x7d",
  "\x7d;",
  "var empty_obj = \x7b\x7d;",
  "var trail = \x7b a: 1, \x7d;",
  ";",
  "debugger;",
  "",
  "function outerFunc(paramA, paramB, paramC) \x7b",
  "    var localA = paramA + paramB * paramC - 1 / 2 % 3;",
  "    var localB = (localA << 1) >> 2 >>> 3;",
  "    var localC = localA & localB | localA ^ ~localB;",
  "    var localD = !localA && localB || localC;",
  "    var localE = localA < localB && localB > localC &&",
  "                 localA <= localB && localB >= localC;",
  "    var localF = localA == localB && localB != localC &&",
  "                 localA === localB && localB !== localC;",
  "    var localG = localA instanceof Object && \"x\" in obj;",
  "    var localH = localA ? localB : localC;",
  "    localA += 1; localA -= 1; localA *= 2; localA /= 2; localA %= 2;",
  "    localA <<= 1; localA >>= 1; localA >>>= 1;",
  "    localA &= 1; localA |= 1; localA ^= 1;",
  "    localA = localB = localC;",
  "    localA++;",
  "    localB--;",
  "    ++localA;",
  "    --localB;",
  "    delete obj.key;",
  "    void 0;",
  "    typeof localA;",
  "    +localA;",
  "    -localB;",
  "    var plusplus = localA + ++localB;",
  "    var ne = new Error();",
  "    var ne2 = new Array(1, 2, 3);",
  "    var ne3 = new Object;",
  "    new Date;",
  "    obj.key = 1;",
  "    obj[\"str\"] = 2;",
  "    obj['str2'] = 3;",
  "    obj[\"not id!\"] = 4;",
  "    obj[localA] = 5;",
  "    outerFunc(1, 2, 3);",
  "    outerFunc(1)(2)[3].foo;",
  "    (function iife(x) \x7b return x; \x7d)(1);",
  "    (function (y) \x7b return y + 1; \x7d)(2);",
  "    var anon = function () \x7b return 42; \x7d;",
  "    var named = function namedExpr(z) \x7b return z; \x7d;",
  "    var withparams = function (p, q) \x7b return p + q; \x7d;",
  "    (1, 2, 3);",
  "    (localA = 5);",
  "    (localA ? 1 : 2);",
  "    (/regex/).test(\"x\");",
  "    (obj.key);",
  "    (typeof x);",
  "    if (localA) \x7b localB = 1; \x7d else \x7b localC = 2; \x7d",
  "    if (localA) \x7b localB = 1; \x7d",
  "    if (localA) \x7b if (localB) localC = 1; \x7d else localD = 2;",
  "    if (localA) \x7b localB = 1; localC = 2; \x7d else \x7b localD = 3; \x7d",
  "    if (localA) obj.m(); else (obj.n)();",
  "    for (var idx = 0, jdx = 10; idx < jdx; idx++) \x7b localA += idx; \x7d",
  "    for (idx = 0; idx < 5; ++idx) localA--;",
  "    for (; false; ) break;",
  "    for (foo(); false; ) break;",
  "    for (idx = (1 < 2 ? 3 : 4); false; ) break;",
  "    for (idx = 0, jdx = 1; false; ) break;",
  "    for (localA instanceof Object; false; ) break;",
  "    for (var k in obj) \x7b localA += obj[k]; \x7d",
  "    for (k in obj) \x7b localB += obj[k]; \x7d",
  "    for (var m = 0 in obj) \x7b localC += m; \x7d",
  "    while (false) \x7b continue; \x7d",
  "    do \x7b localA++; localB--; \x7d while (false);",
  "    do localA++; while (false);",
  "    loop1: for (var ii = 0; ii < 3; ii++) \x7b",
  "        loop2: for (var jj = 0; jj < 3; jj++) \x7b",
  "            if (jj == 1) continue loop2;",
  "            if (ii == 2) break loop1;",
  "        \x7d",
  "    \x7d",
  "    switch (localA) \x7b",
  "        case 1:",
  "            localB = 1;",
  "            break;",
  "        case 2:",
  "        case 3:",
  "            localB = 2;",
  "            break;",
  "        default:",
  "            localB = 0;",
  "    \x7d",
  "    switch (localB) \x7b case 0: break; \x7d",
  "    try \x7b throw new Error(\"x\"); \x7d catch (err) \x7b localA = err; \x7d",
  "    try \x7b localA = 1; \x7d finally \x7b localB = 2; \x7d",
  "    try \x7b localA = 1; localB = 2; \x7d"
    ++ " catch (e2) \x7b localB = e2; localA = 0; \x7d finally \x7b localC = 3; localD = 4; \x7d",
  "    with (obj) \x7b key = 99; \x7d",
  "    function innerNoParams() \x7b return; \x7d",
  "    function innerDecl(x, y) \x7b",
  "        var shadowed = x + y + localA + unknownGlobal;",
  "        return shadowed;",
  "    \x7d",
  "    return (localA, localB, localC);",
  "\x7d",
  "",
  "outerFunc(1, 2, 3);",
  "alpha = alpha == 1 ? 2 : 3;",
  "a & b | c ^ d && e || f;",
  "a < b > c <= d >= e instanceof f in g;",
  "a == b != c === d !== e;",
  "a << b >> c >>> d;",
  "a * b / c % d + e - f;",
  "x++;",
  "x--;",
  "a, b, c;",
  "var q",
  "var r = 1",
  "q = r",
  "function auto() \x7b return",
  "\x7d"]

/-- Member access by names in quotes, expressions in `for` headers, nested branches. -/
def corners : String := lines [
  "",
  "a[\"foo\"];",
  "a['bar'];",
  "a[\"not id\"];",
  "for (a ? b : c; false; ) x;",
  "for (++i; false; ) x;",
  "for (var q = a < b && c > d || e == f && g != h; q; ) break;",
  "for (var q2 = a & b | c ^ d; q2; ) break;",
  "for (var q3 = a === b ? c : d; q3; ) break;",
  "for (var q4 = (a = 1); q4; ) break;",
  "new Thing(1).method()[0].sub;",
  "x = new Thing(1).method()[0].sub;",
  "y = (foo(1, 2));",
  "if (x) \x7b if (y) a; \x7d else b;",
  "if (x) \x7b a; b; \x7d else \x7b c; \x7d",
  "do \x7b a; b; \x7d while (x);",
  "var fn = function named2() \x7b return 1; \x7d;"]

/-- A program of `copies` copies of `tour` and `corners`. -/
def program (copies : Nat) : String := String.join (List.replicate copies (tour ++ corners))

def arrays (count : Nat) : String :=
  lines ((List.range count).map fun i =>
    "var v" ++ i.repr ++ " = [" ++ i.repr ++ ", " ++ (i + 1).repr ++ "];")

/-- Small programs, a good and a bad one in turn. -/
def snippets : List String := [
  lines ["function add(x, y) \x7b var z = x + y; return z \x7d",
    "var q",
    "var r = 1",
    "q = r",
    "add(q, r)"],
  lines ["var = 1;"],
  lines ["while (true) \x7b break \x7d",
    "for (;;) \x7b continue \x7d"],
  lines ["if (a b) c;"],
  lines ["throw x",
    "do \x7b y \x7d while (z)",
    "var w"],
  lines ["a = ] b;"],
  lines ["function id(v) \x7b return v \x7d",
    "var t = id(1)",
    "debugger"],
  lines ["f(;"]]

end JsMinify.Samples
