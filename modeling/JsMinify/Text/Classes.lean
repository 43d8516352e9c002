import JsMinify.Text.Ranges

/-!
# Character classes of identifiers

The letters, combining marks, digits and connectors that a name may hold, as ranges of code points,
and the blank characters that may separate `get` and `set` from a property name. All classes lie in
the basic plane.
-/

namespace JsMinify.Text

/-- Letters of every script, upper case, lower case, title case, modifier or other. -/
def letterRanges : Ranges :=
  .ofRuns 0 [65,26,6,26,47,1,10,1,4,1,5,23,1,31,1,458,4,12,14,5,7,1,1,1,129,5,1,2,2,4,8,1,1,3,1,1,1,20,1,83,1,139,8,
    154,13,38,2,1,7,39,72,27,5,3,46,42,35,2,1,99,1,1,15,2,7,2,10,3,2,1,16,1,1,30,29,89,11,1,24,33,9,2,4,1,265,54,3,1,
    18,1,7,10,15,2,8,5,5,8,2,2,2,22,1,7,1,1,3,4,3,1,16,1,13,2,1,3,14,2,19,6,4,2,2,22,1,7,1,2,1,2,1,2,31,4,1,1,19,3,
    16,9,1,3,1,22,1,7,1,2,1,5,3,1,18,1,15,2,35,8,2,2,2,22,1,7,1,2,1,5,3,1,30,2,1,3,15,1,17,1,1,6,3,3,1,4,3,2,1,1,1,2,
    3,2,3,3,3,12,22,1,52,8,1,3,1,23,1,10,1,5,3,1,26,2,6,2,35,8,1,3,1,23,1,10,1,5,3,1,32,1,1,2,35,8,1,3,1,23,1,16,3,1,
    34,2,24,6,5,18,3,24,1,9,1,1,2,7,58,48,1,2,12,7,58,2,1,1,2,2,1,1,2,1,6,4,1,7,1,3,1,1,1,1,2,2,1,4,1,2,9,1,2,5,1,1,
    21,2,34,1,63,8,1,36,27,4,116,43,20,1,16,6,4,4,3,1,3,2,7,3,4,13,12,1,17,38,10,43,1,1,3,90,5,68,5,82,6,73,1,4,2,7,
    1,1,1,4,2,41,1,4,2,33,1,4,2,7,1,1,1,4,2,15,1,57,1,4,2,67,37,16,16,85,12,620,2,8,10,26,5,75,21,13,1,4,14,18,14,18,
    14,13,1,3,15,52,35,1,4,1,67,88,8,41,1,1,85,29,51,30,2,5,11,42,23,7,56,23,238,47,17,7,55,30,13,2,80,36,41,3,10,36,
    130,192,64,278,2,6,2,38,2,6,2,8,1,1,1,1,1,1,1,31,2,53,1,7,1,1,3,3,1,7,3,4,2,6,4,13,5,3,1,7,116,1,13,1,16,5,109,1,
    4,1,2,10,1,1,3,5,6,1,1,1,1,1,1,4,1,11,2,4,5,5,4,1,52,2,2683,47,1,47,1,16,1,13,2,101,27,38,10,54,9,1,16,23,9,7,1,
    7,1,7,1,7,1,7,1,7,1,7,1,7,80,1,469,2,42,5,5,2,4,86,6,3,1,90,1,4,5,41,3,94,17,24,56,16,512,1,6580,1,74,1,20930,1,
    60,1165,115,269,3,16,10,2,20,32,2,13,16,25,127,9,2,103,2,2,110,7,1,3,1,4,1,23,29,52,14,50,86,28,10,23,185,41,23,
    3,1,8,436,1,11170,1,8540,302,2,59,5,106,38,7,12,5,5,1,1,10,1,13,1,5,1,1,1,2,1,2,1,108,33,363,18,64,2,54,40,12,
    116,5,1,135,36,26,6,26,11,89,3,6,2,6,2,6,2,3]

/-- Marks that combine with the character before them, spacing or not. -/
def combiningRanges : Ranges :=
  .ofRuns 0 [768,112,275,5,265,45,1,1,1,2,1,2,1,1,72,11,48,20,17,1,101,7,2,6,2,2,1,4,35,1,30,27,91,11,58,9,34,4,1,9,
    1,3,1,5,210,4,56,1,1,17,2,5,12,2,29,3,56,1,1,7,2,2,2,3,9,1,10,2,29,3,56,1,1,5,4,2,2,3,3,1,30,2,3,1,11,3,56,1,1,8,
    1,3,1,3,20,2,29,3,56,1,1,7,2,2,2,3,8,2,10,2,30,1,59,5,3,3,1,4,9,1,41,3,58,7,1,3,1,4,7,2,11,2,30,2,56,1,1,7,1,3,1,
    4,7,2,11,2,30,2,58,7,1,3,1,4,9,1,10,2,30,2,70,1,4,6,1,1,1,8,18,2,61,1,2,7,12,8,98,1,2,6,1,2,11,6,74,2,27,1,1,1,1,
    1,4,2,49,20,1,2,8,8,1,36,9,1,100,20,23,4,4,3,1,3,2,7,3,4,13,12,1,1,10,4,705,1,946,3,29,3,29,2,30,2,66,30,9,1,45,
    3,155,1,118,12,4,12,116,17,7,2,77,5,57,10,1,29,2,1,128,5,47,17,38,9,12,3,30,10,121,20,152,3,1,21,4,1,4,1,205,39,
    22,3,720,13,4,1,3,12,3070,3,238,32,554,6,105,2,30164,1,12,2,114,2,272,1,3,1,4,1,23,5,88,2,50,17,27,18,52,8,25,13,
    44,4,47,14,104,14,12,1,8,2,45,1,52,1,1,3,2,2,5,2,1,1,289,8,1,2,20272,1,737,16,16,7]

/-- Decimal digits of every script. -/
def digitRanges : Ranges :=
  .ofRuns 0 [48,10,1574,10,134,10,198,10,412,10,118,10,118,10,118,10,118,10,118,10,118,10,118,10,118,10,224,10,118,
    10,70,10,278,10,70,10,1862,10,38,10,300,10,128,11,165,10,6,10,182,10,86,10,134,10,6,10,35270,10,678,10,38,10,198,
    10,118,10,406,10,21270,10]

/-- Punctuation that connects words, such as the low line. -/
def connectorRanges : Ranges :=
  [(0x5f, 0x5f), (0x203f, 0x2040), (0x2054, 0x2054), (0xfe33, 0xfe34), (0xfe4d, 0xfe4f),
  (0xff3f, 0xff3f)]

/-- Blank characters of every kind: spaces, tabs, line and paragraph ends, and the four
information separators. -/
def blankRanges : Ranges :=
  [(0x9, 0xd), (0x1c, 0x20), (0x85, 0x85), (0xa0, 0xa0), (0x1680, 0x1680), (0x2000, 0x200a),
  (0x2028, 0x2029), (0x202f, 0x202f), (0x205f, 0x205f), (0x3000, 0x3000)]

end JsMinify.Text
