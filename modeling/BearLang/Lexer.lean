import BearLang.MaximalMunch
import BearLang.Values

/-!
# The lexer

The rules of `lexer.l` in their order, each with the length of its longest
match. Bytes that no rule matches are copied to the output, as flex does by
default. `yylex` is a function of the scanner: the unread input, the line and
the text of the last token.
-/

namespace BearLang

set_option autoImplicit false

inductive TokenType where
  | lparen | rparen | string | integer | symbol | ifToken | doToken | whileToken | docstring
deriving DecidableEq, Repr

inductive Rule where
  | docstr | string | whitespace | comment | leftParen | rightParen | numberInteger
  | ifOper | doOper | whileOper | quotedSymbol | symbol
deriving DecidableEq, Repr

def newline : Byte := 10

def quote : Byte := chr '"'

def backslash : Byte := chr '\\'

def isDigit (c : Byte) : Bool := decide (chr '0' ≤ c) && decide (c ≤ chr '9')

def isLetter (c : Byte) : Bool :=
  (decide (chr 'a' ≤ c) && decide (c ≤ chr 'z')) || (decide (chr 'A' ≤ c) && decide (c ≤ chr 'Z'))

/-- `[\@\_\%\:\=\*\-\/\+a-zA-Z0-9]` -/
def isSymbolChar (c : Byte) : Bool := (text "@_%:=*-/+").contains c || isLetter c || isDigit c

/-- `[ \t\n\r]` -/
def isWhitespace (c : Byte) : Bool := c == chr ' ' || c == 9 || c == newline || c == 13

/-- The length of `(\\.|[^"\\])*\"`: up to and with the first quote that no
backslash escapes. A dot does not match a newline. -/
def closingQuote : CStr → Option Nat
  | [] => none
  | [c] => if c = quote then some 1 else none
  | c :: d :: rest =>
      if c = quote then some 1
      else if c = backslash then
        if d = newline then none else (closingQuote rest).map (· + 2)
      else (closingQuote (d :: rest)).map (· + 1)

def runOf (p : Byte → Bool) (input : CStr) : Option Nat :=
  match (input.takeWhile p).length with
  | 0 => none
  | n + 1 => some (n + 1)

def literal (word input : CStr) : Option Nat :=
  if word.isPrefixOf input then some word.length else none

/-- The length of the longest match of a rule, trailing context included. -/
def Rule.matched (rule : Rule) (input : CStr) : Option Nat :=
  match rule with
  | .docstr =>
      match literal [quote, quote, quote] input with
      | none => none
      | some _ =>
          match closingQuote (input.drop 3) with
          | none => none
          | some n => (literal [quote, quote] (input.drop (3 + n))).map (· + (3 + n))
  | .string =>
      match input with
      | [] => none
      | c :: rest => if c = quote then (closingQuote rest).map (· + 1) else none
  | .whitespace =>
      match input with
      | [] => none
      | c :: _ => if isWhitespace c then some 1 else none
  | .comment =>
      -- `\;.*$`: the newline after it is trailing context
      match input with
      | [] => none
      | c :: rest =>
          if c = chr ';' then
            let n := (rest.takeWhile (· != newline)).length
            if n < rest.length then some (n + 2) else none
          else none
  | .leftParen => literal (text "(") input
  | .rightParen => literal (text ")") input
  | .numberInteger =>
      let dashes := (input.takeWhile (· == chr '-')).length
      (runOf isDigit (input.drop dashes)).map (· + dashes)
  | .ifOper => literal (text "if") input
  | .doOper => literal (text "do") input
  | .whileOper => literal (text "while") input
  | .quotedSymbol =>
      match input with
      | [] => none
      | c :: rest => if c = chr '\'' then (runOf isSymbolChar rest).map (· + 1) else none
  | .symbol => runOf isSymbolChar input

def rules : List Rule :=
  [.docstr, .string, .whitespace, .comment, .leftParen, .rightParen, .numberInteger,
   .ifOper, .doOper, .whileOper, .quotedSymbol, .symbol]

/-- `yyleng`: trailing context is matched but not consumed. -/
def Rule.consumed (rule : Rule) (n : Nat) : Nat :=
  match rule with
  | .comment => n - 1
  | _ => n

def Rule.token : Rule → Option TokenType
  | .docstr => some .docstring
  | .string => some .string
  | .whitespace => none
  | .comment => none
  | .leftParen => some .lparen
  | .rightParen => some .rparen
  | .numberInteger => some .integer
  | .ifOper => some .ifToken
  | .doOper => some .doToken
  | .whileOper => some .whileToken
  | .quotedSymbol => some .symbol
  | .symbol => some .symbol

/-- `yytext` after the action: the quotes are cut off, and the rest is read as
a C string. -/
def Rule.yytext (rule : Rule) (lexeme : CStr) : CStr :=
  match rule with
  | .docstr => cString ((lexeme.drop 3).take (lexeme.length - 6))
  | .string => cString ((lexeme.drop 1).take (lexeme.length - 2))
  | _ => cString lexeme

structure Scanner where
  input : CStr
  lineno : Nat := 1
  yytext : CStr := []
  echoed : CStr := []
deriving DecidableEq, Repr

/-- `yy_scan_string` and `yyset_in`: a scanner at the start of its input. -/
def scannerOf (input : CStr) : Scanner := { input := input }

def Scanner.advance (sc : Scanner) (n : Nat) : Scanner :=
  { sc with
    input := sc.input.drop n
    lineno := sc.lineno + (sc.input.take n).count newline }

/-- One turn of the scanner loop on non-empty input. -/
def scanStep (sc : Scanner) : Option TokenType × Scanner :=
  match MaximalMunch.longest Rule.matched rules sc.input with
  | none => (none, { sc.advance 1 with echoed := sc.echoed ++ sc.input.take 1 })
  | some (rule, n) =>
      (rule.token,
        { sc.advance (rule.consumed n) with
          yytext := rule.yytext (sc.input.take (rule.consumed n)) })

def yylexFrom : Nat → Scanner → Option TokenType × Scanner
  | 0, sc => (none, sc)
  | fuel + 1, sc =>
      if sc.input = [] then (none, sc)
      else
        match scanStep sc with
        | (some token, sc) => (some token, sc)
        | (none, sc) => yylexFrom fuel sc

/-- The next token, or none at the end of the input. Every turn consumes a
byte, so the length of the input bounds the turns. -/
def yylex (sc : Scanner) : Option TokenType × Scanner := yylexFrom (sc.input.length + 1) sc

example : (yylex (scannerOf (text "  ; x\n -12) "))).1 = some .integer := by decide

end BearLang
