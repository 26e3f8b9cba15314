import JavaAtlas.Java.Rule

/-!
# Words, literals and comments
-/

namespace JavaAtlas.Java.Grammar

set_option autoImplicit false

open Parsing (Lexeme Pattern charsOf charRange charsBut letterClass digitClass centClass)
open Parsing.Pattern
open Phrase Category Definition

/-! ## Characters -/

def decimal : Pattern := one (charRange '0' '9')

def hexadecimalChars : BitSet := ((charRange '0' '9').union (charRange 'a' 'f')).union (charRange 'A' 'F')

def hexadecimal : Pattern := one hexadecimalChars

def octalChars : BitSet := charRange '0' '7'

def wordStart : BitSet :=
  (((charRange 'a' 'z').union (charRange 'A' 'Z')).union (charsOf "_$")).insert letterClass

def wordPart : BitSet :=
  ((wordStart.union (charRange '0' '9')).insert digitClass).insert centClass

/-! ## Numbers -/

/-- A zero, or digits that do not start with one; groups of them are divided by underscores. -/
def digits : Pattern :=
  either (text "0")
    (seq (one (charRange '1' '9'))
      (maybe (seq (maybe (text "_")) (separated (many1 decimal) (many1 (text "_"))))))

def decimalDigits : Pattern := separated (many1 decimal) (text "_")

def hexDigits : Pattern := separated (many1 hexadecimal) (text "_")

def sign : Pattern := maybe (anyOf "+-")

def longMark : Pattern := maybe (anyOf "lL")

def floatMark : Pattern := anyOf "fFdD"

def exponent : Pattern := all [anyOf "eE", sign, decimalDigits]

def hexStart : Pattern := either (text "0x") (text "0X")

def decimalInteger : Pattern := seq digits longMark

def hexInteger : Pattern := all [hexStart, hexDigits, longMark]

def octalInteger : Pattern :=
  all [oneOf [text "0o", text "0O", text "0"], separated (many1 (one octalChars)) (text "_"), longMark]

def binaryInteger : Pattern :=
  all [either (text "0b") (text "0B"), separated (many1 (anyOf "01")) (text "_"), longMark]

def decimalFloat : Pattern :=
  oneOf [
    all [decimalDigits, text ".", maybe decimalDigits, maybe exponent, maybe floatMark],
    all [text ".", decimalDigits, maybe exponent, maybe floatMark],
    all [digits, anyOf "eEpP", sign, decimalDigits, maybe floatMark],
    all [digits, maybe exponent, floatMark]]

def hexFloat : Pattern :=
  all [
    hexStart,
    either (seq hexDigits (maybe (text "."))) (all [maybe hexDigits, text ".", hexDigits]),
    maybe (all [anyOf "eEpP", sign, digits, maybe floatMark])]

/-! ## Characters and strings -/

def characterLiteral : Pattern :=
  let inside := oneOf [
    one (charsBut (charsOf "\\'\n")),
    seq (text "\\") (one (charsBut (charsOf "\n"))),
    text "\\\n"]
  all [text "'", many1 inside, text "'"]

def plainText : Pattern := many1 (one (charsBut (charsOf "\"\\")))

def quotedText : Pattern :=
  seq (text "\"") (many (either (one (charsBut (charsOf "\"\\"))) (text "\\\"")))

def escapeSequence : Pattern :=
  let octal := one octalChars
  let code := oneOf [
    one (charsBut ((charsOf "xu").union octalChars)),
    all [octal, maybe octal, maybe octal],
    all [text "x", hexadecimal, hexadecimal],
    all [text "u", hexadecimal, hexadecimal, hexadecimal, hexadecimal],
    all [text "u\x7b", many1 hexadecimal, text "\x7d"]]
  seq (text "\\") code

def unknownEscape : Pattern := seq (text "\\") (one (charsBut (charsOf "abfnrtvxu'\"\\?")))

def lineComment : Pattern := seq (text "//") (many (one (charsBut (charsOf "\n"))))

def blockComment : Pattern :=
  let notStar := many (one (charsBut (charsOf "*")))
  let stars := many1 (text "*")
  all [
    text "/*", notStar, stars,
    many (all [one (charsBut (charsOf "/*")), notStar, stars]),
    text "/"]

/-! ## Definitions -/

/-- The words of a text. A word is looked for before every other token. -/
def words : List Definition := [
  token identifier { pattern := seq (one wordStart) (many (one wordPart)) }]

def literals : List Definition := [
  rule literal (.oneOf [
    Phrase.decimalInteger, Phrase.hexInteger, Phrase.octalInteger, Phrase.binaryInteger,
    Phrase.decimalFloat, Phrase.hexFloat, trueLiteral, falseLiteral, Phrase.characterLiteral,
    stringLiteral, nullLiteral]),
  token Phrase.decimalInteger { pattern := decimalInteger },
  token Phrase.hexInteger { pattern := hexInteger },
  token Phrase.octalInteger { pattern := octalInteger },
  token Phrase.binaryInteger { pattern := binaryInteger },
  token Phrase.decimalFloat { pattern := decimalFloat },
  token Phrase.hexFloat { pattern := hexFloat },
  word trueLiteral "true",
  word falseLiteral "false",
  token Phrase.characterLiteral { pattern := characterLiteral },
  rule stringLiteral (.oneOf [plainString, textBlock]),
  rule plainString (.all [
    "\"",
    .many (.oneOf [stringFragment, Phrase.escapeSequence, stringInterpolation]),
    "\""]),
  rule textBlock (.all [
    "\"\"\"",
    .many (.oneOf [multilineStringFragment, escape, stringInterpolation]),
    "\"\"\""]),
  token stringFragment
    { pattern := plainText, isImmediate := true, precedence := 1, isContextual := true },
  token textRun { pattern := plainText, isContextual := true },
  token quoteRun { pattern := quotedText, isContextual := true },
  rule multilineStringFragment (.oneOf [textRun, quoteRun]),
  rule stringInterpolation (.all ["\\\x7b", expression, "\x7d"]),
  token plainEscape { pattern := unknownEscape, isImmediate := true },
  ⟨escape, .phrase [
    { rule := plainEscape, level := 2 },
    { rule := Phrase.escapeSequence, level := 1 }]⟩,
  token Phrase.escapeSequence { pattern := escapeSequence, isImmediate := true },
  word nullLiteral "null"]

/-- Comments may stand between any two tokens. -/
def comments : List Definition := [
  token Phrase.lineComment { pattern := lineComment },
  token Phrase.blockComment { pattern := blockComment }]

end JavaAtlas.Java.Grammar
